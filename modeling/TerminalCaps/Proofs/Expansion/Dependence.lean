import TerminalCaps.Proofs.Expansion.Visits

/-!
Two runs of one program, which can tell them apart only by what it names: the variables that it
loads and the parameters that it pushes.
-/
namespace TerminalCaps
namespace Expansion

section Corresponding

variable {α β : Type} {R : α → α → Prop} {T : β → β → Prop}

/-- The same failure, or two results in a relation. -/
inductive Corresponding (R : α → α → Prop) :
    Except ExpansionError α → Except ExpansionError α → Prop
  | error (e : ExpansionError) : Corresponding R (.error e) (.error e)
  | ok {a b : α} (h : R a b) : Corresponding R (.ok a) (.ok b)

theorem Corresponding.cases {x y : Except ExpansionError α} (h : Corresponding R x y) :
    (∃ e, x = .error e ∧ y = .error e) ∨ ∃ a b, x = .ok a ∧ y = .ok b ∧ R a b := by
  cases h with
  | error e => exact .inl ⟨e, rfl, rfl⟩
  | ok h => exact .inr ⟨_, _, rfl, rfl, h⟩

theorem Corresponding.bind {x y : Except ExpansionError α} {f g : α → Except ExpansionError β}
    (h : Corresponding R x y) (hnext : ∀ a b, R a b → Corresponding T (f a) (g b)) :
    Corresponding T (x >>= f) (y >>= g) := by
  cases h with
  | error e => exact .error e
  | ok h => exact hnext _ _ h

end Corresponding

namespace Machine

theorem get_parameters_increment (m : Machine) (index : Fin 9) :
    m.increment.parameters.get index =
      if index.val < 2 then incremented (m.parameters.get index) else m.parameters.get index := by
  show (m.increment.parameters)[index.val] = _
  unfold increment
  rw [Vector.getElem_mapFinIdx]
  rfl

end Machine

end Expansion

namespace Template.Program
open Expansion

variable {p : Program} {n₁ n₂ m₁ m₂ : Machine} {op : Operation}

/-- The program performs the operation somewhere. -/
def Has (p : Program) (op : Operation) : Prop := .operation op ∈ p.instructions

instance (p : Program) (op : Operation) : Decidable (p.Has op) :=
  inferInstanceAs (Decidable (_ ∈ _))

/-- Two machines that the program cannot tell apart, in runs that began with `n₁` and `n₂`. A
variable has the same value in both or is as it was, and is so if the program does not store it. -/
structure Alike (p : Program) (n₁ n₂ m₁ m₂ : Machine) : Prop where
  stack : m₁.stack = m₂.stack
  parameters : ∀ index, p.Has (.pushParameter index) →
    m₁.parameters.get index = m₂.parameters.get index
  values : ∀ v, m₁.get v = m₂.get v ∨ (m₁.get v = n₁.get v ∧ m₂.get v = n₂.get v)
  unstored : ∀ v, ¬ p.Has (.store v) → m₁.get v = n₁.get v ∧ m₂.get v = n₂.get v

namespace Alike

theorem get_eq (h : p.Alike n₁ n₂ m₁ m₂) {v : Variable} (hv : n₁.get v = n₂.get v) :
    m₁.get v = m₂.get v := by
  -- A variable that has not been stored since is equal only if it was so at the start.
  rcases h.values v with heq | ⟨h₁, h₂⟩
  · exact heq
  · rw [h₁, h₂, hv]

theorem pushed?_eq (h : p.Alike n₁ n₂ m₁ m₂) (hop : p.Has op)
    (hloads : ∀ v, p.Has (.load v) → n₁.get v = n₂.get v) : m₁.pushed? op = m₂.pushed? op := by
  cases op with
  | pushParameter index => exact congrArg some (h.parameters index hop)
  | load source => exact congrArg some (h.get_eq (hloads source hop))
  | length | binary op | unary op =>
    unfold Machine.pushed?
    rw [h.stack]
  | _ => rfl

theorem after (h : p.Alike n₁ n₂ m₁ m₂) (hop : p.Has op)
    (hloads : ∀ v, p.Has (.load v) → n₁.get v = n₂.get v) :
    p.Alike n₁ n₂ (m₁.after op) (m₂.after op) where
  stack := by
    rw [Machine.stack_after, Machine.stack_after, h.stack, h.pushed?_eq hop hloads]
  parameters := by
    intro index hindex
    have hequal := h.parameters index hindex
    rw [Machine.parameters_after, Machine.parameters_after]
    split
    · rw [Machine.get_parameters_increment, Machine.get_parameters_increment, hequal]
    · exact hequal
  values := by
    intro v
    have hstored : m₁.storedValue = m₂.storedValue := by
      unfold Machine.storedValue
      rw [h.stack]
    rw [Machine.get_after, Machine.get_after]
    split
    · exact .inl hstored
    · exact h.values v
  unstored := by
    intro v hv
    have hother : op ≠ .store v := by
      intro hstore
      exact hv (hstore ▸ hop)
    rw [Machine.get_after, Machine.get_after, if_neg hother, if_neg hother]
    exact h.unstored v hv

theorem withStack (h : p.Alike n₁ n₂ m₁ m₂) (stack : Stack) :
    p.Alike n₁ n₂ { m₁ with stack } { m₂ with stack } where
  stack := rfl
  parameters := h.parameters
  values := by
    intro v
    rw [Machine.get_withStack, Machine.get_withStack]
    exact h.values v
  unstored := by
    intro v
    rw [Machine.get_withStack, Machine.get_withStack]
    exact h.unstored v

end Alike

/-- Two steps to the same place, that send the same and leave machines that are alike. -/
def AlikeSteps (p : Program) (n₁ n₂ : Machine) (a b : Step) : Prop :=
  a.output = b.output ∧ a.position = b.position ∧ p.Alike n₁ n₂ a.machine b.machine

/-- One step keeps two runs together. -/
theorem Alike.step? (h : p.Alike n₁ n₂ m₁ m₂)
    (hloads : ∀ v, p.Has (.load v) → n₁.get v = n₂.get v) (position : Nat) :
    Corresponding (Option.Rel (p.AlikeSteps n₁ n₂)) (p.step? position m₁)
      (p.step? position m₂) := by
  cases hget : p.instructions[position]? with
  | none =>
    unfold Program.step?
    rw [hget]
    exact .ok .none
  | some instruction =>
    cases instruction with
    | operation op =>
      rw [step?_of_operation hget, step?_of_operation hget, h.stack]
      have hop : p.Has op := Array.mem_of_getElem? hget
      cases op.written m₂.stack with
      | error e => exact .error e
      | ok text => exact .ok (.some ⟨rfl, rfl, h.after hop hloads⟩)
    | ifStart | ifEnd | elseJump target =>
      unfold Program.step?
      rw [hget]
      exact .ok (.some ⟨rfl, rfl, h⟩)
    | thenJump target =>
      unfold Program.step?
      rw [hget, h.stack]
      exact .ok (.some ⟨rfl, rfl, h.withStack _⟩)

theorem Alike.runFrom (h : p.Alike n₁ n₂ m₁ m₂)
    (hloads : ∀ v, p.Has (.load v) → n₁.get v = n₂.get v) (steps position : Nat) :
    Corresponding (fun a b => a.1 = b.1 ∧ p.Alike n₁ n₂ a.2 b.2)
      (p.runFrom steps position m₁) (p.runFrom steps position m₂) := by
  induction steps generalizing position m₁ m₂ with
  | zero => exact .ok ⟨rfl, h⟩
  | succ steps ih =>
    apply (h.step? hloads position).bind
    intro a b hab
    cases hab with
    | none => exact .ok ⟨rfl, h⟩
    | @some a b hsteps =>
      -- Both runs go on at the same place, so the induction applies to what is left of them.
      rcases hsteps with ⟨houtput, hposition, hmachine⟩
      show Corresponding _ (p.runFrom steps a.position a.machine >>= _)
        (p.runFrom steps b.position b.machine >>= _)
      rw [houtput, hposition]
      apply (ih hmachine _).bind
      intro c d hcd
      exact .ok ⟨congrArg (b.output ++ ·) hcd.1, hcd.2⟩

end Template.Program

namespace Expansion
open Template

/-- The value of a parameter in a run. -/
def given (parameters : List Parameter) (index : Fin 9) : Operand :=
  parameters[index]?.elim .zero Operand.ofParameter

theorem Machine.get_parameters_start (statics : Variables) (parameters : List Parameter)
    (index : Fin 9) : (start statics parameters).parameters.get index = given parameters index := by
  show (Vector.ofFn _)[index.val] = _
  rw [Vector.getElem_ofFn]
  rfl

/-- What a program does depends on nothing but the static variables that it loads and the parameters
that it pushes, and no variable changes that it does not store. -/
theorem Session.run_depends (p : Program) (s₁ s₂ : Session)
    (parameters₁ parameters₂ : List Parameter)
    (hloads : ∀ letter, p.Has (.load (.static letter)) →
      s₁.statics.get letter = s₂.statics.get letter)
    (hparameters : ∀ index, p.Has (.pushParameter index) →
      given parameters₁ index = given parameters₂ index) :
    (∃ error, s₁.run p parameters₁ = .error error ∧ s₂.run p parameters₂ = .error error) ∨
    ∃ output t₁ t₂, s₁.run p parameters₁ = .ok (output, t₁) ∧
      s₂.run p parameters₂ = .ok (output, t₂) ∧
      ∀ letter,
        (t₁.statics.get letter = t₂.statics.get letter ∨
          (t₁.statics.get letter = s₁.statics.get letter ∧
            t₂.statics.get letter = s₂.statics.get letter)) ∧
        (¬ p.Has (.store (.static letter)) →
          t₁.statics.get letter = s₁.statics.get letter ∧
            t₂.statics.get letter = s₂.statics.get letter) := by
  let n₁ := Machine.start s₁.statics parameters₁
  let n₂ := Machine.start s₂.statics parameters₂
  have hvalues : ∀ v, p.Has (.load v) → n₁.get v = n₂.get v := by
    intro v hv
    cases v with
    | static letter => exact hloads letter hv
    | dynamic letter => rfl
  have hgiven : ∀ index, p.Has (.pushParameter index) →
      n₁.parameters.get index = n₂.parameters.get index := by
    intro index hindex
    rw [Machine.get_parameters_start, Machine.get_parameters_start]
    exact hparameters index hindex
  have hstart : p.Alike n₁ n₂ n₁ n₂ :=
    ⟨rfl, hgiven, fun v => .inr ⟨rfl, rfl⟩, fun v _ => ⟨rfl, rfl⟩⟩
  rcases (hstart.runFrom hvalues p.size 0).cases with ⟨e, h₁, h₂⟩ | ⟨a, b, h₁, h₂, houtput, halike⟩
  · left
    refine ⟨e, ?_, ?_⟩
    · rw [Session.run, Program.run, h₁]
      rfl
    · rw [Session.run, Program.run, h₂]
      rfl
  · right
    refine ⟨a.1, ⟨a.2.statics⟩, ⟨b.2.statics⟩, ?_, ?_, ?_⟩
    · rw [Session.run, Program.run, h₁]
      rfl
    · rw [Session.run, Program.run, h₂, houtput]
      rfl
    · exact fun letter => ⟨halike.values (.static letter), halike.unstored (.static letter)⟩

/-- Stores the sum of a variable and a parameter, and sends it. -/
def storedSum : Program := .compile (Bytes.ofAscii "%gA%p2%+%PB%gB%d")

theorem Session.run_depends_storedSum :
    let s : Session := ⟨Variables.initial.set 4 (.number 7)⟩
    ∃ output t₁ t₂, s.run storedSum [.number 1, .number 5] = .ok (output, t₁) ∧
      initial.run storedSum [.string [], .number 5, .number 3] = .ok (output, t₂) ∧
      t₁.statics.get 4 = .number 7 ∧ t₂.statics.get 4 = .zero := by
  intro s
  rcases run_depends storedSum s initial [.number 1, .number 5] [.string [], .number 5, .number 3]
    (by decide +kernel) (by decide +kernel) with ⟨e, h, -⟩ | ⟨output, t₁, t₂, h₁, h₂, hkept⟩
  · cases e
    exact absurd h (by decide +kernel)
  · exact ⟨output, t₁, t₂, h₁, h₂, (hkept 4).2 (by decide +kernel)⟩

end Expansion
end TerminalCaps
