import Mathlib.Data.List.Forall2
import TagTree.Proofs.Mention
import TagTree.Scope.Stack

/-!
# The law of counting

Scopes are entered and left, arrays are started and references consumed, in any order. What the next
reference comes to can be told from the calls that were made directly in its scope (`Call.here`):
the element of an array is the number of references to it that were taken since it was started last,
and a single property may be referred to once (`ScopeStack.consume_after`).
-/

namespace TagTree

/-- A call to a stack of scopes. -/
inductive Call where
  | enter
  | exit
  | startArray (name : String)
  | consume (edge : Reference)

/-- A call with what it came to. -/
structure Entry where
  call : Call
  outcome : Except StructuralError (Option Nat)

namespace Entry

/-- The array was started. -/
def starts (name : String) (entry : Entry) : Bool :=
  match entry.call with
  | .startArray other => other == name
  | _ => false

/-- A reference to the array, or else to the single property, was taken. -/
def takes (isArray : Bool) (name : String) (entry : Entry) : Bool :=
  match entry.call with
  | .consume edge => edge.isArray == isArray && edge.name == name && entry.outcome.isOk
  | _ => false

/-- The number of references to an array that were taken since it was started, where the newest
entry comes first. -/
def counted (name : String) (entries : List Entry) : Nat :=
  (entries.takeWhile fun entry => !entry.starts name).countP (takes true name)

/-- The entries of all scopes, innermost and newest first, with another one. -/
def record (levels : List (List Entry)) (entry : Entry) : List (List Entry) :=
  match entry.call with
  | .enter => [] :: levels
  | .exit => levels.tail
  | _ => (entry :: levels.headD []) :: levels.tail

end Entry

namespace ScopeStack

/-- The stack after a call, and what the call comes to. -/
def perform (stack : ScopeStack) : Call → ScopeStack × Except StructuralError (Option Nat)
  | .enter => (stack.enter, .ok none)
  | .exit => (stack.exit, .ok none)
  | .startArray name => (stack.startArray name, .ok none)
  | .consume edge => stack.consume edge

/-- The stack after calls. -/
def after (stack : ScopeStack) (calls : List Call) : ScopeStack :=
  calls.foldl (fun stack call => (stack.perform call).1) stack

/-- The calls with what they come to. -/
def log (stack : ScopeStack) : List Call → List Entry
  | [] => []
  | call :: calls => ⟨call, (stack.perform call).2⟩ :: log (stack.perform call).1 calls

theorem log_append (stack : ScopeStack) (first second : List Call) :
    stack.log (first ++ second) = stack.log first ++ (stack.after first).log second := by
  induction first generalizing stack with
  | nil => rfl
  | cons call first ih => exact congrArg (_ :: ·) (ih _)

end ScopeStack

namespace Call

/-- The calls that were made directly in the innermost scope, newest first. -/
def here (calls : List Call) : List Entry :=
  ((ScopeStack.log [] calls).foldl Entry.record []).headD []

/-- All scopes that the calls enter are left again, and no others. -/
inductive Balanced : List Call → Prop where
  | nil : Balanced []
  | startArray (name : String) {calls : List Call} (h : Balanced calls) :
    Balanced (.startArray name :: calls)
  | consume (edge : Reference) {calls : List Call} (h : Balanced calls) :
    Balanced (.consume edge :: calls)
  | scope {inner calls : List Call} (hinner : Balanced inner) (h : Balanced calls) :
    Balanced (.enter :: (inner ++ .exit :: calls))

/-- The further calls are beside the point for the elements of an array: they are about other
properties or refused, or they are made in a scope of their own. -/
inductive Aside (calls : List Call) (name : String) : List Call → Prop where
  | startArray {other : String} (h : other ≠ name) : Aside calls name [.startArray other]
  | consume {edge : Reference} (h : edge.name ≠ name ∨ edge.isArray = false) :
    Aside calls name [.consume edge]
  | reserved {edge : Reference} (h : edge.isReserved = true) : Aside calls name [.consume edge]
  | refused {edge : Reference} {error : StructuralError}
    (h : ((ScopeStack.after [] calls).consume edge).2 = .error error) :
    Aside calls name [.consume edge]
  | scope {inner : List Call} (h : Balanced inner) :
    Aside calls name (.enter :: (inner ++ [.exit]))

end Call

namespace Entry

variable {name : String} {entry : Entry} {entries : List Entry}

theorem counted_cons (h : entry.starts name = false) (entries : List Entry) :
    counted name (entry :: entries) =
      counted name entries + if entry.takes true name then 1 else 0 := by
  simp [counted, h, List.countP_cons]

theorem takes_ok (isArray : Bool) (name : String) (edge : Reference) (index : Option Nat) :
    takes isArray name ⟨.consume edge, .ok index⟩ =
      (edge.isArray == isArray && edge.name == name) :=
  Bool.and_true _

theorem takes_error (isArray : Bool) (name : String) (edge : Reference) (error : StructuralError) :
    takes isArray name ⟨.consume edge, .error error⟩ = false :=
  Bool.and_false _

end Entry

namespace Scope

variable {scope : Scope} {entries : List Entry} {edge : Reference} {name : String}

/-- The scope has seen the given entries, newest first. -/
structure Logs (scope : Scope) (entries : List Entry) : Prop where
  count : ∀ name, Name.isReserved name = false → scope.count name = Entry.counted name entries
  scalars : ∀ name, Name.isReserved name = false →
    scope.scalars.contains name = entries.any (Entry.takes false name)

theorem logs_empty : Logs {} [] where
  count name _ := by simp [count, Entry.counted]
  scalars name _ := by simp

theorem Logs.startArray (h : scope.Logs entries) (name : String)
    (outcome : Except StructuralError (Option Nat)) :
    (scope.startArray name).Logs (⟨.startArray name, outcome⟩ :: entries) where
  count other hother := by
    rw [Scope.startArray, count_setCount]
    by_cases hn : name = other
    · simp [Entry.counted, Entry.starts, hn]
    · simp [Entry.counted, Entry.starts, Entry.takes, hn, h.count other hother]
  scalars other hother := h.scalars other hother

/-- A call that takes nothing leaves the counters alone. -/
theorem Logs.cons (h : scope.Logs entries) {entry : Entry}
    (hstarts : ∀ name, entry.starts name = false)
    (htakes : ∀ isArray name, Name.isReserved name = false → entry.takes isArray name = false) :
    scope.Logs (entry :: entries) where
  count name hname := by
    rw [Entry.counted_cons (hstarts name), htakes true name hname]
    exact h.count name hname
  scalars name hname := by
    rw [List.any_cons, htakes false name hname]
    exact h.scalars name hname

/-- The scope after a reference has seen it too. -/
theorem Logs.consume (h : scope.Logs entries) (edge : Reference) :
    (scope.consume edge).1.Logs (⟨.consume edge, (scope.consume edge).2⟩ :: entries) := by
  have hlast : Logs { scope with lastReference := some edge.name } entries := ⟨h.count, h.scalars⟩
  have hrefused (error : StructuralError) :
      Logs { scope with lastReference := some edge.name }
        (⟨.consume edge, .error error⟩ :: entries) :=
    hlast.cons (fun _ => rfl) fun isArray name _ => Entry.takes_error isArray name edge error
  cases hr : edge.isReserved with
  | true =>
    rw [consume_of_reserved hr]
    refine hlast.cons (fun _ => rfl) fun isArray name hname => ?_
    have hne : edge.name ≠ name := by
      rintro rfl
      exact Bool.noConfusion (hr.symm.trans hname)
    rw [Entry.takes_ok, beq_false_of_ne hne, Bool.and_false]
  | false =>
    cases ha : edge.isArray with
    | true =>
      rw [consume_of_array scope hr ha]
      split
      · refine ⟨fun name hname => ?_, fun name hname => ?_⟩
        · rw [count_setCount, Entry.counted_cons rfl, ← h.count name hname, Entry.takes_ok, ha]
          by_cases hn : edge.name = name
          · simp [hn]
          · simp [hn]; rfl
        · rw [List.any_cons, Entry.takes_ok, ha]
          exact h.scalars name hname
      · exact hrefused _
    | false =>
      rw [consume_of_single scope hr ha]
      split
      · exact hrefused _
      · refine ⟨fun name hname => ?_, fun name hname => ?_⟩
        · rw [Entry.counted_cons rfl, Entry.takes_ok, ha]
          exact h.count name hname
        · rw [contains_insert, List.any_cons, Entry.takes_ok, ha, h.scalars name hname]
          rfl

end Scope

namespace ScopeStack

variable {stack : ScopeStack} {levels : List (List Entry)}
  (h : List.Forall₂ Scope.Logs stack levels)

include h

theorem logs_top : stack.top.Logs (levels.headD []) := by
  cases h with
  | nil => exact Scope.logs_empty
  | cons h _ => exact h

theorem logs_tail : List.Forall₂ Scope.Logs stack.tail levels.tail := by
  cases h with
  | nil => exact .nil
  | cons _ h => exact h

/-- After a call each scope has seen what was recorded for it. -/
theorem logs_perform (call : Call) :
    List.Forall₂ Scope.Logs (stack.perform call).1
      (Entry.record levels ⟨call, (stack.perform call).2⟩) := by
  cases call with
  | enter => exact .cons Scope.logs_empty h
  | exit => exact logs_tail h
  | startArray name => exact .cons ((logs_top h).startArray name _) (logs_tail h)
  | consume edge => exact .cons ((logs_top h).consume edge) (logs_tail h)

theorem logs_after (calls : List Call) :
    List.Forall₂ Scope.Logs (stack.after calls) ((stack.log calls).foldl Entry.record levels) := by
  induction calls generalizing stack levels with
  | nil => exact h
  | cons call calls ih => exact ih (logs_perform h call)

end ScopeStack

namespace Call

variable {calls more : List Call} {name : String}

/-- Calls that leave all scopes that they enter change the entries of the innermost one only. -/
theorem Balanced.foldl_record (h : Balanced calls) (stack : ScopeStack) (top : List Entry)
    (rest : List (List Entry)) :
    ∃ found, (stack.log calls).foldl Entry.record (top :: rest) = found :: rest := by
  induction h generalizing stack top rest with
  | nil => exact ⟨top, rfl⟩
  | startArray name _ ih => exact ih _ _ rest
  | consume edge _ ih => exact ih _ _ rest
  | @scope inner calls _ _ ihinner ih =>
    obtain ⟨found, hfound⟩ := ihinner stack.enter [] (top :: rest)
    obtain ⟨last, hlast⟩ := ih (stack.enter.after inner).exit top rest
    refine ⟨last, ?_⟩
    show (ScopeStack.log stack.enter (inner ++ .exit :: calls)).foldl Entry.record
      ([] :: top :: rest) = _
    rw [ScopeStack.log_append, List.foldl_append, hfound]
    exact hlast

/-- Calls that are beside the point change no count. -/
theorem Aside.counted_eq (h : Aside calls name more) (hname : Name.isReserved name = false) :
    Entry.counted name (here (calls ++ more)) = Entry.counted name (here calls) := by
  rw [here, ScopeStack.log_append, List.foldl_append]
  have hconsume {edge : Reference} {outcome : Except StructuralError (Option Nat)}
      (htakes : Entry.takes true name ⟨.consume edge, outcome⟩ = false) (entries : List Entry) :
      Entry.counted name (⟨.consume edge, outcome⟩ :: entries) = Entry.counted name entries := by
    rw [Entry.counted_cons rfl, htakes]
    rfl
  cases h with
  | @startArray other hne =>
    have hstarts : Entry.starts name ⟨.startArray other, .ok none⟩ = false := beq_false_of_ne hne
    exact Entry.counted_cons hstarts _
  | @consume edge h => exact hconsume (by rcases h with h | h <;> simp [Entry.takes, h]) _
  | @reserved edge hreserved =>
    have hne : edge.name ≠ name := by
      rintro rfl
      exact Bool.noConfusion (hreserved.symm.trans hname)
    exact hconsume (by simp [Entry.takes, hne]) _
  | @refused edge error herror =>
    refine hconsume ?_ _
    show Entry.takes true name ⟨.consume edge, ((ScopeStack.after [] calls).consume edge).2⟩ = false
    rw [herror, Entry.takes_error]
  | @scope inner h =>
    obtain ⟨found, hfound⟩ := h.foldl_record (ScopeStack.after [] calls).enter []
      ((ScopeStack.log [] calls).foldl Entry.record [])
    show Entry.counted name (((ScopeStack.log (ScopeStack.after [] calls).enter
      (inner ++ [.exit])).foldl Entry.record
        ([] :: (ScopeStack.log [] calls).foldl Entry.record [])).headD []) = _
    rw [ScopeStack.log_append, List.foldl_append, hfound]
    rfl

end Call

/-- What a reference after any calls comes to. One to an array is taken exactly if it has no index
or the index is the number of references to the array that were taken in the same scope since the
array was started last, and it stands for the element with that index. One to a single property is
taken exactly if none was before. Calls that are beside the point do not change the count. -/
theorem ScopeStack.consume_after (calls : List Call) (edge : Reference)
    (hreserved : edge.isReserved = false) :
    (edge.isArray = true → ∀ index, ((after [] calls).consume edge).2 = .ok index ↔
      (edge.index = none ∨ edge.index = some (Entry.counted edge.name (Call.here calls))) ∧
      index = some (Entry.counted edge.name (Call.here calls))) ∧
    (edge.isArray = false → ∀ index, ((after [] calls).consume edge).2 = .ok index ↔
      (∀ entry ∈ Call.here calls, entry.takes false edge.name = false) ∧ index = none) ∧
    ∀ more, Call.Aside calls edge.name more →
      Entry.counted edge.name (Call.here (calls ++ more)) =
        Entry.counted edge.name (Call.here calls) := by
  have hlogs : (after [] calls).top.Logs (Call.here calls) := logs_top (logs_after .nil calls)
  have hconsume : ((after [] calls).consume edge).2 = ((after [] calls).top.consume edge).2 := rfl
  refine ⟨fun ha index => ?_, fun ha index => ?_, fun more h => h.counted_eq hreserved⟩
  · rw [hconsume, Scope.consume_of_array _ hreserved ha, hlogs.count edge.name hreserved]
    split
    · rename_i hindex
      simp [hindex, eq_comm]
    · rename_i hindex
      simp [hindex]
  · rw [hconsume, Scope.consume_of_single _ hreserved ha, hlogs.scalars edge.name hreserved]
    cases htaken : (Call.here calls).any (Entry.takes false edge.name) with
    | true =>
      obtain ⟨entry, hmem, htakes⟩ := List.any_eq_true.mp htaken
      simp only [if_true, reduceCtorEq, false_iff]
      exact fun hnone => Bool.noConfusion (htakes.symm.trans (hnone.1 entry hmem))
    | false =>
      have hnone : ∀ entry ∈ Call.here calls, entry.takes false edge.name = false := by
        simpa using htaken
      rw [if_neg Bool.false_ne_true]
      exact ⟨fun h => ⟨hnone, (Except.ok.inj h).symm⟩, fun h => congrArg _ h.2.symm⟩

/-- An array is started, and the elements mentioned in an inner scope are not of it. -/
def nestedCalls : List Call :=
  let item (index : Option Nat) : Call := .consume ⟨"items", true, index, {}⟩
  [.enter, item none, .startArray "items", item none, .enter, item none, item none, .exit,
    .consume ⟨"name", false, none, {}⟩, item (some 7), item (some 1)]

theorem ScopeStack.consume_after_of_nested :
    Entry.counted "items" (Call.here nestedCalls) = 2 ∧
    ((after [] nestedCalls).consume ⟨"items", true, some 2, {}⟩).2 = .ok (some 2) ∧
    ((after [] nestedCalls).consume ⟨"items", true, some 1, {}⟩).2 ≠ .ok (some 1) ∧
    ((after [] nestedCalls).consume ⟨"name", false, none, {}⟩).2 ≠ .ok none := by
  have hcount : Entry.counted "items" (Call.here nestedCalls) = 2 := by decide +kernel
  have htaken : ((Call.here nestedCalls).any (Entry.takes false "name")) = true := by
    decide +kernel
  obtain ⟨entry, hmem, htakes⟩ := List.any_eq_true.mp htaken
  have hreserved : Name.isReserved "items" = false := by decide
  have hitems (index : Nat) :=
    (consume_after nestedCalls ⟨"items", true, some index, {}⟩ hreserved).1 rfl (some index)
  have hname := (consume_after nestedCalls ⟨"name", false, none, {}⟩ (by decide)).2.1 rfl none
  refine ⟨hcount, (hitems 2).mpr ⟨.inr ?_, ?_⟩, fun h => ?_, fun h => ?_⟩
  · rw [hcount]
  · rw [hcount]
  · have hone := ((hitems 1).mp h).2
    rw [hcount] at hone
    cases hone
  · exact Bool.noConfusion (htakes.symm.trans ((hname.mp h).1 entry hmem))

end TagTree
