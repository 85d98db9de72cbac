import Litmus.Failure

/-!
Outcomes of nondeterministic work: done, failed, pruned, waiting for a pick, or thrown out of. An
`Outcome` is a tree whose leaves are results; `bind` grafts further work onto the done leaves, and
`guarded` turns what faults threw into failures, at once and behind every pick.
-/

namespace Litmus

/-- Why a path is pruned. A pruned path is a normal result of exploration. -/
inductive Pruning where
  | writeOrder
  | maintenanceOrder
  | exclusiveWithoutLoad
  | exclusiveLost
  | invalidatedWalk
  | noCandidate
  | instruction
  deriving DecidableEq, Repr

namespace Pruning

/-- The text of a reason for pruning. -/
def text : Pruning → String
  | .writeOrder => "write-order"
  | .maintenanceOrder => "tlbi-order"
  | .exclusiveWithoutLoad => "exclusive-no-load"
  | .exclusiveLost => "exclusive-lost"
  | .invalidatedWalk => "invalidated-translation"
  | .noCandidate => "no-candidate"
  | .instruction => "instruction-discard"

/-- All reasons for pruning. -/
def all : List Pruning :=
  [.writeOrder, .maintenanceOrder, .exclusiveWithoutLoad, .exclusiveLost, .invalidatedWalk, .noCandidate,
   .instruction]

end Pruning

/-- What a pick ranges over: the indices below a count, or the values of a width in bits. -/
inductive Space where
  | options (count : Nat)
  | bits (width : Number)
  deriving DecidableEq, Repr

namespace Space

/-- The width from which on the values of a space are too many to be counted. -/
def uncountedBits : Int := 0x40000000

/-- How many values a space has: none if its width is negative. There is no telling for a width that is
not whole or too large, which is found out only when the values are asked for. -/
def size : Space → Except Trouble Nat
  | .options count => .ok count
  | .bits (.whole width) =>
    if width < 0 then .ok 0
    else if width < uncountedBits then .ok (1 <<< width.toNat)
    else .error (.other .rangeError "Maximum BigInt size exceeded")
  | .bits width =>
    .error (.other .rangeError s!"The number {width.text} cannot be converted to a BigInt because it is not an integer")

/-- The values of a space, in order. -/
def picks (s : Space) : Except Trouble (List Int) := s.size.map fun n => (List.range n).map Int.ofNat

end Space

/-- The outcome of work that may have to choose. -/
inductive Outcome (α : Type) where
  | done (a : α)
  | fail (f : Failure Diagnostic)
  | discard (why : Pruning) (detail : Option String)
  | choice (space : Space) (resume : Int → Outcome α)
  | thrown (t : Trouble)

namespace Outcome

variable {α β : Type}

/-- Go on from every done leaf. -/
def bind : Outcome α → (α → Outcome β) → Outcome β
  | .done a, k => k a
  | .fail f, _ => .fail f
  | .discard why detail, _ => .discard why detail
  | .choice space resume, k => .choice space fun pick => (resume pick).bind k
  | .thrown t, _ => .thrown t

instance : Monad Outcome where
  pure := .done
  bind := bind

/-- Change what every done leaf holds. -/
def map (f : α → β) : Outcome α → Outcome β
  | .done a => .done (f a)
  | .fail e => .fail e
  | .discard why detail => .discard why detail
  | .choice space resume => .choice space fun pick => (resume pick).map f
  | .thrown t => .thrown t

/-- The outcome with the faults thrown in it as failures, behind every pick too. -/
def guarded : Outcome α → Outcome α
  | .thrown (.fault f) => .fail f.failure
  | .choice space resume => .choice space fun pick => (resume pick).guarded
  | o => o

/-- Throw a fault. -/
def fault (f : Fault) : Outcome α := .thrown (.fault f)

/-- The outcome of work that may fault. -/
def ofExcept : Except Fault α → Outcome α
  | .ok a => .done a
  | .error f => .fault f

/-- Prune the path, with nothing more to say. -/
def prune (why : Pruning) : Outcome α := .discard why none

/-- Fail with what a code and its parameters describe. -/
def failWith (f : Fault) : Outcome α := .fail f.failure

/-- Take one of the options: the only one without a choice, and none at all prunes the path. -/
def among {γ : Type} (options : List γ) (k : γ → Outcome α) : Outcome α :=
  match options with
  | [] => prune .noCandidate
  | [c] => k c
  | _ =>
    .choice (.options options.length) fun pick =>
      match if 0 ≤ pick then options[pick.toNat]? else none with
      | some c => k c
      | none => failWith (.pickOutside pick)

/-- Take any value of this width. -/
def anyBits (width : Number) (k : Int → Outcome α) : Outcome α :=
  .choice (.bits width) fun pick =>
    if pick < 0 then failWith (.pickOutside pick)
    else
      match (Space.bits width).size with
      | .ok size => if pick < size then k pick else failWith (.pickOutside pick)
      | .error t => .thrown t

/-- What the outcome holds, or the error that says why it holds nothing. -/
def unwrap : Outcome α → Except Trouble α
  | .done a => .ok a
  | .fail f => .error (.other .error f.told.message)
  | .discard why _ => .error (.other .error s!"Cannot unwrap discarded outcome ({why.text})")
  | .choice _ _ => .error (.other .error "Cannot unwrap unresolved choice")
  | .thrown t => .error t

/-- Whether the work is done. -/
def isDone : Outcome α → Bool
  | .done _ => true
  | _ => false

/-- Whether the work failed. -/
def isFail : Outcome α → Bool
  | .fail _ => true
  | _ => false

/-- Whether the path was pruned. -/
def isDiscard : Outcome α → Bool
  | .discard _ _ => true
  | _ => false

/-- Whether a pick is awaited. -/
def isChoice : Outcome α → Bool
  | .choice _ _ => true
  | _ => false

/-- The outcome after these picks, as long as it asks for any; picks left over are ignored. -/
def resumed : Outcome α → List Int → Outcome α
  | .choice _ resume, pick :: picks => (resume pick).resumed picks
  | o, _ => o

end Outcome

end Litmus
