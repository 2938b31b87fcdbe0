import TerminalCaps.Proofs.Template.Jumps

/-!
Structured templates: operations and conditionals, nested to any depth. Linking the flat list of
their instructions gives every jump of a conditional the place that its structure says.
-/
namespace TerminalCaps.Template

mutual

/-- Operations and conditionals one after another. -/
inductive Block where
  | done
  | operation (op : Operation) (rest : Block)
  | conditional (arms : Arms) (rest : Block)
  deriving DecidableEq, Repr

/-- The inside of a conditional: a condition and its body, and what is tried if it is false, which
is nothing, another block, or a further condition. -/
inductive Arms where
  | only (condition body : Block)
  | orElse (condition body otherwise : Block)
  | orIf (condition body : Block) (more : Arms)
  deriving DecidableEq, Repr

end

mutual

/-- The instructions of a block without targets. -/
def Block.flatten : Block → List Instruction
  | .done => []
  | .operation op rest => .operation op :: rest.flatten
  | .conditional arms rest => .ifStart :: (arms.flatten ++ .ifEnd :: rest.flatten)

def Arms.flatten : Arms → List Instruction
  | .only condition body => condition.flatten ++ .thenJump none :: body.flatten
  | .orElse condition body otherwise =>
    condition.flatten ++ .thenJump none :: (body.flatten ++ .elseJump none :: otherwise.flatten)
  | .orIf condition body more =>
    condition.flatten ++ .thenJump none :: (body.flatten ++ .elseJump none :: more.flatten)

end

mutual

/-- The instructions of a block from a place of the program. -/
def Block.assemble (position : Nat) : Block → List Instruction
  | .done => []
  | .operation op rest => .operation op :: rest.assemble (position + 1)
  | .conditional arms rest =>
    let exit := position + 1 + arms.flatten.length
    .ifStart :: (arms.assemble (position + 1) exit ++ .ifEnd :: rest.assemble (exit + 1))

/-- The instructions of the inside of a conditional that is left at `exit`. -/
def Arms.assemble (position exit : Nat) : Arms → List Instruction
  | .only condition body =>
    let onTrue := position + condition.flatten.length + 1
    condition.assemble position ++ .thenJump (some exit) :: body.assemble onTrue
  | .orElse condition body otherwise =>
    let onTrue := position + condition.flatten.length + 1
    let onFalse := onTrue + body.flatten.length + 1
    condition.assemble position ++ .thenJump (some onFalse) ::
      (body.assemble onTrue ++ .elseJump (some exit) :: otherwise.assemble onFalse)
  | .orIf condition body more =>
    let onTrue := position + condition.flatten.length + 1
    let onFalse := onTrue + body.flatten.length + 1
    condition.assemble position ++ .thenJump (some onFalse) ::
      (body.assemble onTrue ++ .elseJump (some exit) :: more.assemble onFalse exit)

end

theorem Unlinked.append {first second : List Instruction} (h : Unlinked first)
    (h' : Unlinked second) : Unlinked (first ++ second) :=
  List.forall_mem_append.2 ⟨h, h'⟩

theorem Unlinked.cons {instruction : Instruction} {rest : List Instruction}
    (h : instruction.target? = none) (h' : Unlinked rest) : Unlinked (instruction :: rest) :=
  List.forall_mem_cons.2 ⟨h, h'⟩

mutual

theorem Block.unlinked_flatten (b : Block) : Unlinked b.flatten := by
  cases b with
  | done => exact List.forall_mem_nil _
  | operation op rest => exact .cons rfl rest.unlinked_flatten
  | conditional arms rest =>
    exact .cons rfl (arms.unlinked_flatten.append (.cons rfl rest.unlinked_flatten))

theorem Arms.unlinked_flatten (arms : Arms) : Unlinked arms.flatten := by
  cases arms with
  | only condition body =>
    exact condition.unlinked_flatten.append (.cons rfl body.unlinked_flatten)
  | orElse condition body otherwise =>
    have htail : Unlinked (body.flatten ++ .elseJump none :: otherwise.flatten) :=
      body.unlinked_flatten.append (.cons rfl otherwise.unlinked_flatten)
    exact condition.unlinked_flatten.append (.cons rfl htail)
  | orIf condition body more =>
    have htail : Unlinked (body.flatten ++ .elseJump none :: more.flatten) :=
      body.unlinked_flatten.append (.cons rfl more.unlinked_flatten)
    exact condition.unlinked_flatten.append (.cons rfl htail)

end

section Linking

variable {size position : Nat} {first first' rest rest' : List Instruction}
  {levels opened outer : List Level}

theorem linkOnto_append_of (hrest : linkOnto size (position + first.length) rest levels =
      (rest', opened)) (hfirst : linkOnto size position first opened = (first', outer)) :
    linkOnto size position (first ++ rest) levels = (first' ++ rest', outer) := by
  rw [linkOnto_append, hrest]
  simp only [hfirst]

theorem linkOnto_cons_of (instruction : Instruction)
    (hrest : linkOnto size (position + 1) rest levels = (rest', opened)) :
    linkOnto size position (instruction :: rest) levels =
      ((instruction.link size position opened).1 :: rest',
        (instruction.link size position opened).2) := by
  rw [linkOnto, hrest]

/-- A condition and a body before whatever is tried when the condition is false. -/
theorem linkOnto_alternative {condition condition' body body' otherwise otherwise' :
    List Instruction} {exit : Nat} {onFalse : Option Nat}
    (hcondition : ∀ levels, linkOnto size position condition levels = (condition', levels))
    (hbody : ∀ levels, linkOnto size (position + condition.length + 1) body levels =
      (body', levels))
    (hotherwise : linkOnto size (position + condition.length + 1 + body.length + 1) otherwise
      levels = (otherwise', ⟨onFalse, exit⟩ :: outer)) :
    linkOnto size position
        (condition ++ .thenJump none :: (body ++ .elseJump none :: otherwise)) levels =
      (condition' ++ .thenJump (some (position + condition.length + 1 + body.length + 1)) ::
        (body' ++ .elseJump (some exit) :: otherwise'), ⟨none, exit⟩ :: outer) := by
  have helse := linkOnto_cons_of (.elseJump none) hotherwise
  have hthen := linkOnto_cons_of (.thenJump none) (linkOnto_append_of helse (hbody _))
  exact linkOnto_append_of hthen (hcondition _)

end Linking

mutual

/-- A block leaves the open levels as they are. -/
theorem Block.linkOnto_flatten (b : Block) (size position : Nat) (levels : List Level) :
    linkOnto size position b.flatten levels = (b.assemble position, levels) := by
  cases b with
  | done => rfl
  | operation op rest =>
    exact linkOnto_cons_of (.operation op) (rest.linkOnto_flatten size (position + 1) levels)
  | conditional arms rest =>
    have hrest := linkOnto_cons_of .ifEnd
      (rest.linkOnto_flatten size (position + 1 + arms.flatten.length + 1) levels)
    have harms := arms.linkOnto_flatten size (position + 1)
      (position + 1 + arms.flatten.length) levels
    exact linkOnto_cons_of .ifStart (linkOnto_append_of hrest harms)

/-- The inside of a conditional leaves its own level open, which a `%?` takes away. -/
theorem Arms.linkOnto_flatten (arms : Arms) (size position exit : Nat) (levels : List Level) :
    linkOnto size position arms.flatten (⟨some exit, exit⟩ :: levels) =
      (arms.assemble position exit, ⟨none, exit⟩ :: levels) := by
  cases arms with
  | only condition body =>
    have hbody := linkOnto_cons_of (.thenJump none) (body.linkOnto_flatten size
      (position + condition.flatten.length + 1) (⟨some exit, exit⟩ :: levels))
    exact linkOnto_append_of hbody (condition.linkOnto_flatten size position _)
  | orElse condition body otherwise =>
    exact linkOnto_alternative (condition.linkOnto_flatten size position)
      (body.linkOnto_flatten size _) (otherwise.linkOnto_flatten size _ _)
  | orIf condition body more =>
    exact linkOnto_alternative (condition.linkOnto_flatten size position)
      (body.linkOnto_flatten size _) (more.linkOnto_flatten size _ exit levels)

end

/-- Linking finds the structure again. -/
theorem Block.link_flatten (b : Block) : link b.flatten = b.assemble 0 := by
  rw [link, linkFrom_eq, linkOnto_flatten]

theorem Block.length_assemble (b : Block) (position : Nat) :
    (b.assemble position).length = b.flatten.length := by
  have hlink : (linkOnto 0 position b.flatten []).1 = b.assemble position := by
    rw [linkOnto_flatten]
  rw [← hlink, length_linkOnto]

theorem Arms.length_assemble (arms : Arms) (position exit : Nat) :
    (arms.assemble position exit).length = arms.flatten.length := by
  have hlink : (linkOnto 0 position arms.flatten [⟨some exit, exit⟩]).1 =
      arms.assemble position exit := by
    rw [linkOnto_flatten]
  rw [← hlink, length_linkOnto]

end TerminalCaps.Template
