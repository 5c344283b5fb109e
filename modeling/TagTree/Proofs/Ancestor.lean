import TagTree.Cursor.Trail

/-!
# Ancestors by short cuts

A trail is searched for an ancestor turn by turn: each turn takes the longest short cut that does
not pass the depth sought, or goes to the parent (`Trail.leap`). Searches and short cuts are right
together, by induction on the depth (`Trail.Descended.exists_ancestor`). With ladders of up to 31
levels all numbers are those of 64-bit words (`Trail.ancestor_of_descents`).
-/

namespace TagTree

/-- The least number that does not fit into a word. -/
def wordLimit : Nat := UInt64.size

/-- The distances of a ladder, if their powers fit into words. -/
def Ladder.distances? (ladder : Ladder) : Option (List Nat) :=
  (List.range ladder.levels).mapM fun level =>
    let power := Nat.pow 4 (level + 1)
    if power < wordLimit then some power else none

theorem mapM_eq_some_map {α β : Type} {f : α → Option β} {g : α → β} {list : List α}
    (h : ∀ a ∈ list, f a = some (g a)) : list.mapM f = some (list.map g) := by
  induction list with
  | nil => rfl
  | cons a list ih =>
    rw [List.mapM_cons, h a List.mem_cons_self, ih (List.forall_mem_cons.mp h).2]
    rfl

theorem Ladder.distances?_eq {ladder : Ladder} (h : ladder.levels ≤ 31) :
    ladder.distances? = some ladder.distances := by
  refine mapM_eq_some_map fun level hlevel => if_pos ?_
  have hlevel := List.mem_range.mp hlevel
  have hpower : 4 ^ (level + 1) ≤ 4 ^ 31 := Nat.pow_le_pow_right (by decide) (by omega)
  exact Nat.lt_of_le_of_lt hpower (by decide)

/-- One step of a way down: the place that is entered, the slot that led there, and the slot there
whose gap stands for itself. -/
structure Descent where
  place : Place
  slot : Nat
  bare : Option Nat

namespace Trail

/-- The trail a number of steps up, if there are as many. -/
def ascend : Nat → Trail → Option Trail
  | 0, trail => some trail
  | steps + 1, trail => trail.parent.bind (ascend steps)

/-- One turn of the search for the ancestor at a depth. -/
def leap (target : Nat) (trail : Trail) : Option Trail :=
  (trail.skips.reverse.find? fun skip => target ≤ skip.depth).or trail.parent

/-- The search for the ancestor at a depth, which must end within the given number of turns. -/
def search (target : Nat) : Nat → Trail → Option Trail
  | 0, trail => if trail.depth ≤ target then some trail else none
  | turns + 1, trail =>
    if trail.depth ≤ target then some trail else (trail.leap target).bind (search target turns)

/-- The trail one step further, if no number leaves the words on the way: the distances of the
ladder, and the depths of the ancestors sought. -/
def child? (trail : Trail) (place : Place) (slot : Nat) (bare : Option Nat) : Option Trail := do
  let depth := trail.depth + 1
  let distances ← trail.ladder.distances?
  let targets ← (distances.filter fun distance => depth % distance == 0).mapM fun distance =>
    if distance ≤ depth then some (depth - distance) else none
  return { trail.child place slot bare with
    skips := targets.filterMap fun target => (trail.ancestor target).toOption }

/-- The trail at the end of a way down. -/
def descend (trail : Trail) (descents : List Descent) : Trail :=
  descents.foldl (fun trail step => trail.child step.place step.slot step.bare) trail

/-- The trail at the end of a way down, if no number leaves the words. -/
def descend? (trail : Trail) (descents : List Descent) : Option Trail :=
  descents.foldlM (fun trail step => trail.child? step.place step.slot step.bare) trail

variable {trail found : Trail} {ladder : Ladder} {target steps : Nat}

theorem ascend_add (first second : Nat) (trail : Trail) :
    ascend (first + second) trail = (ascend first trail).bind (ascend second) := by
  induction first generalizing trail with
  | zero => rw [Nat.zero_add]; rfl
  | succ first ih =>
    rw [Nat.succ_add, ascend, ascend, Option.bind_assoc]
    exact Option.bind_congr fun parent _ => ih parent

theorem hopSkips_eq (target : Nat) (skips : List Trail) :
    hopSkips target skips =
      (skips.reverse.find? fun skip => target ≤ skip.depth).map (hop target) := by
  induction skips with
  | nil => rw [hopSkips]; rfl
  | cons skip rest ih =>
    rw [hopSkips, ih, List.reverse_cons, List.find?_append]
    cases rest.reverse.find? fun skip => target ≤ skip.depth with
    | some found => rfl
    | none => by_cases h : target ≤ skip.depth <;> simp [h]

/-- An ancestor is found turn by turn. -/
theorem hop_eq (target : Nat) (trail : Trail) :
    trail.hop target =
      if trail.depth ≤ target then some trail else (trail.leap target).bind (hop target) := by
  obtain ⟨_, parent, _, depth, _, skips, _, _, _, _, _⟩ := trail
  rw [hop, hopSkips_eq, leap]
  refine ite_congr rfl (fun _ => rfl) fun _ => ?_
  cases skips.reverse.find? fun skip => target ≤ skip.depth with
  | some found => rfl
  | none => cases parent <;> rw [hopParent] <;> rfl

/-- The trail was come to from a start by steps down. -/
inductive Descended (ladder : Ladder) : Trail → Prop where
  | start (place : Place) : Descended ladder (.start place ladder)
  | child {trail : Trail} (h : Descended ladder trail) (place : Place) (slot : Nat)
    (bare : Option Nat) : Descended ladder (trail.child place slot bare)

namespace Descended

theorem ladder_eq (h : trail.Descended ladder) : trail.ladder = ladder := by
  induction h with
  | start place => rfl
  | child h place slot bare ih => exact ih

/-- What is some steps above a trail is as much less deep. -/
theorem of_ascend (h : trail.Descended ladder) (hascend : trail.ascend steps = some found) :
    found.depth + steps = trail.depth ∧ found.Descended ladder := by
  induction h generalizing steps with
  | start place =>
    cases steps with
    | zero => exact Option.some.inj hascend ▸ ⟨rfl, .start place⟩
    | succ steps => cases hascend
  | @child parent h place slot bare ih =>
    cases steps with
    | zero => exact Option.some.inj hascend ▸ ⟨rfl, h.child place slot bare⟩
    | succ steps => exact (ih hascend).imp_left (congrArg (· + 1))

/-- Ancestors are found from the trail by following short cuts. -/
def Finds (trail : Trail) : Prop :=
  ∀ target, target ≤ trail.depth → ∃ found,
    trail.ascend (trail.depth - target) = some found ∧ trail.hop target = some found

variable (h : trail.Descended ladder)

include h

/-- Each short cut leads to an ancestor, if ancestors are found from the parent. -/
theorem ascend_of_mem_skips (hparent : ∀ parent, trail.parent = some parent → Finds parent)
    (hmem : found ∈ trail.skips) : ∃ steps, trail.ascend (steps + 1) = some found := by
  cases h with
  | start place => cases hmem
  | @child parent h place slot bare =>
    obtain ⟨distance, hdistance, hfound⟩ := List.mem_filterMap.mp hmem
    obtain ⟨hladder, -⟩ := List.mem_filter.mp hdistance
    obtain ⟨level, -, rfl⟩ := Ladder.mem_distances.mp hladder
    have hpos : 0 < Nat.pow 4 (level + 1) := Nat.pow_pos (by decide)
    have hle : parent.depth + 1 - Nat.pow 4 (level + 1) ≤ parent.depth := by omega
    obtain ⟨ancestor, hascend, hhop⟩ := hparent parent rfl _ hle
    rw [Trail.ancestor, if_neg (Nat.not_lt.mpr hle), hhop] at hfound
    obtain rfl : ancestor = found := Option.some.inj hfound
    exact ⟨_, hascend⟩

/-- A turn of the search goes up, and not beyond the depth sought. -/
theorem exists_leap (hlt : target < trail.depth)
    (hskips : ∀ skip ∈ trail.skips, ∃ steps, trail.ascend (steps + 1) = some skip) :
    ∃ steps next, trail.leap target = some next ∧ trail.ascend (steps + 1) = some next ∧
      target ≤ next.depth := by
  unfold leap
  cases hfind : trail.skips.reverse.find? fun skip => target ≤ skip.depth with
  | some skip =>
    obtain ⟨steps, hascend⟩ := hskips skip (List.mem_reverse.mp (List.mem_of_find?_eq_some hfind))
    have hnot := List.find?_some hfind
    exact ⟨steps, skip, rfl, hascend, of_decide_eq_true hnot⟩
  | none =>
    cases h with
    | start place => cases hlt
    | @child parent h place slot bare => exact ⟨0, parent, rfl, rfl, Nat.le_of_lt_succ hlt⟩

/-- The ancestor at a depth is found, and within as many turns as it is steps above. Short cuts and
searches are right together, by induction on the depth. -/
theorem exists_ancestor (hle : target ≤ trail.depth) :
    ∃ found, trail.ascend (trail.depth - target) = some found ∧ trail.hop target = some found ∧
      ∀ turns, trail.depth - target ≤ turns → trail.search target turns = some found := by
  generalize hdepth : trail.depth = depth at hle
  induction depth using Nat.strongRecOn generalizing trail target with
  | ind depth ih =>
    subst hdepth
    rcases Nat.lt_or_eq_of_le hle with hlt | rfl
    · have hparent : ∀ parent, trail.parent = some parent → Finds parent := by
        intro parent hparent target hle
        have hascend : trail.ascend 1 = some parent := by rw [ascend, hparent]; rfl
        obtain ⟨hdepth, hp⟩ := h.of_ascend hascend
        obtain ⟨found, hascend, hhop, -⟩ := ih _ (by omega) hp rfl hle
        exact ⟨found, hascend, hhop⟩
      obtain ⟨steps, next, hleap, hnext, hnot⟩ :=
        h.exists_leap hlt fun skip hmem => h.ascend_of_mem_skips hparent hmem
      obtain ⟨hdepth, hdescended⟩ := h.of_ascend hnext
      obtain ⟨found, hascend, hhop, hsearch⟩ := ih _ (by omega) hdescended rfl hnot
      have hsteps : trail.depth - target = (steps + 1) + (next.depth - target) := by omega
      refine ⟨found, ?_, ?_, fun turns hturns => ?_⟩
      · rw [hsteps, ascend_add, hnext]
        exact hascend
      · rw [hop_eq, if_neg (Nat.not_le.mpr hlt), hleap]
        exact hhop
      · obtain ⟨turns, rfl⟩ := Nat.exists_eq_add_of_le' (show 1 ≤ turns by omega)
        rw [search, if_neg (Nat.not_le.mpr hlt), hleap]
        exact hsearch turns (by omega)
    · refine ⟨trail, by rw [Nat.sub_self]; rfl, by rw [hop_eq, if_pos hle], fun turns _ => ?_⟩
      cases turns <;> exact if_pos hle

/-- No number leaves the words when a trail is gone on with. -/
theorem child?_eq (hlevels : ladder.levels ≤ 31) (step : Descent) :
    trail.child? step.place step.slot step.bare =
      some (trail.child step.place step.slot step.bare) := by
  have htargets : (trail.skipDistances (trail.depth + 1)).mapM (fun distance =>
      if distance ≤ trail.depth + 1 then some (trail.depth + 1 - distance) else none) =
        some ((trail.skipDistances (trail.depth + 1)).map (trail.depth + 1 - ·)) := by
    refine mapM_eq_some_map fun distance hmem => if_pos ?_
    obtain ⟨-, hdivides⟩ := List.mem_filter.mp hmem
    exact Nat.le_of_dvd (Nat.succ_pos _) (Nat.dvd_of_mod_eq_zero (beq_iff_eq.mp hdivides))
  have hdistances := Ladder.distances?_eq (h.ladder_eq ▸ hlevels)
  unfold skipDistances at htargets
  simp only [child?, hdistances, Option.bind_eq_bind, Option.bind_some, htargets,
    List.filterMap_map]
  rfl

theorem descend?_eq (hlevels : ladder.levels ≤ 31) (descents : List Descent) :
    trail.descend? descents = some (trail.descend descents) ∧
    (trail.descend descents).Descended ladder ∧
    (trail.descend descents).depth = trail.depth + descents.length := by
  induction descents generalizing trail with
  | nil => exact ⟨rfl, h, rfl⟩
  | cons step rest ih =>
    obtain ⟨hsome, hdescended, hdepth⟩ := ih (h.child step.place step.slot step.bare)
    refine ⟨?_, hdescended, hdepth.trans (Nat.succ_add_eq_add_succ ..)⟩
    rw [descend?, List.foldlM_cons, h.child?_eq hlevels]
    exact hsome

end Descended

/-- On a ladder of at most 31 levels every way down is gone without a number that leaves the words.
From its end the ancestor at every depth is the one that as many steps to the parent lead to, and is
found within as many turns; below the end there is none. -/
theorem ancestor_of_descents (ladder : Ladder) (hlevels : ladder.levels ≤ 31) (place : Place)
    (descents : List Descent) :
    ∃ trail, (start place ladder).descend? descents = some trail ∧
      trail = (start place ladder).descend descents ∧ trail.depth = descents.length ∧
      ∀ depth,
        (depth ≤ trail.depth → ∃ found, trail.ascend (trail.depth - depth) = some found ∧
          trail.ancestor depth = .ok found ∧
          trail.search depth (trail.depth - depth) = some found) ∧
        (trail.depth < depth → trail.ancestor depth = .error (.depth depth)) := by
  have hstart : (start place ladder).Descended ladder := .start place
  obtain ⟨hsome, hdescended, hdepth⟩ := hstart.descend?_eq hlevels descents
  refine ⟨_, hsome, rfl, hdepth.trans (Nat.zero_add _), fun depth =>
    ⟨fun hle => ?_, fun hlt => if_pos hlt⟩⟩
  obtain ⟨found, hascend, hhop, hsearch⟩ := hdescended.exists_ancestor hle
  refine ⟨found, hascend, ?_, hsearch _ (Nat.le_refl _)⟩
  rw [ancestor, if_neg (Nat.not_lt.mpr hle), hhop]

/-- A way down by five places with the numbers from one on. -/
def numberedWay : List Descent :=
  (List.range 5).map fun number => ⟨⟨number + 1, some number, .null⟩, 1, none⟩

theorem ancestor_of_descents_of_numbered :
    (⟨3⟩ : Ladder).levels ≤ 31 ∧ ∃ trail found,
      (start (.root .null) ⟨3⟩).descend? numberedWay = some trail ∧
      trail.ancestor 1 = .ok found ∧ found.place.number = 1 ∧
      trail.ancestor 6 = .error (.depth 6) := by
  obtain ⟨trail, hsome, rfl, -, h⟩ :=
    ancestor_of_descents ⟨3⟩ (by decide) (.root .null) numberedWay
  obtain ⟨found, hascend, hfound, -⟩ := (h 1).1 (by decide)
  have hnumber : some found.place.number = some 1 :=
    (congrArg (Option.map fun trail : Trail => trail.place.number) hascend).symm
  exact ⟨by decide, _, found, hsome, hfound, Option.some.inj hnumber, (h 6).2 (by decide)⟩

end Trail

end TagTree
