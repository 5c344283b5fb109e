import TagTree.Cursor.Survey
import TagTree.Proofs.Layout

/-!
# Surveys of places made of segments

The table of a node that is made of orderly segments gives each value the index that its reference
stands for, and records the slots of the values of each name (`SlotTable.of_toNode`). By it a survey
traces every gap of a value to the value, and from there to those that came there before
(`Place.Segmented.exists_arrival`).
-/

namespace TagTree

open Segment (allItems width mentions getElem?_gap)

variable {shifts count place : Nat} {segment : Segment Node} {items : List (Item Place)}
  {position : Nat}

namespace Register

variable {α : Type}

theorem get?_insert (register : Register α) (key : String) (value : α) (other : String) :
    (register.insert key value).get? other =
      if key = other then some value else register.get? other := by
  rw [get?_eq, get?_eq, toList_insert]
  by_cases h : key = other
  · rw [if_pos h, h, Entries.get?_insert_self]
  · rw [if_neg h, Entries.get?_insert_of_ne h]

theorem get?_modify (register : Register α) (key : String) (f : α → α) (other : String) :
    (register.modify key f).get? other =
      if key = other then (register.get? other).map f else register.get? other := by
  rw [get?_eq, get?_eq, toList_modify]
  cases hpresent : Entries.get? key register.toList with
  | none =>
    split_ifs with h
    · rw [← h, hpresent]
      rfl
    · rfl
  | some value =>
    split_ifs with h
    · rw [← h, hpresent]
      exact Entries.get?_insert_self ..
    · exact Entries.get?_insert_of_ne h ..

end Register

/-- The slots of the values of a property after one more, which has the given slot and index. -/
def ValueSlots.recorded (slot : Nat) (index : Option Nat) (present : Option ValueSlots) :
    ValueSlots :=
  match index with
  | none => single slot
  | some _ => (present.map (add slot)).getD (array #[slot])

namespace Segment

/-- The indexes that the slots of a segment stand for. -/
def indexes (earlier : List Mention) : Segment Node → List (Option Nat)
  | content _ => [none]
  | embedded edge _ => edge.toList.map (fun _ => none) ++ [none]
  | arrayStart _ => [none, none]
  | value edge _ shifts =>
    let index := Mention.indexOf earlier edge
    index :: index :: (List.replicate shifts [none, index]).flatten

/-- The indexes that the slots of segments stand for. -/
def allIndexes (earlier : List Mention) : List (Segment Node) → List (Option Nat)
  | [] => []
  | segment :: rest =>
    segment.indexes earlier ++ allIndexes (earlier ++ segment.mention?.toList) rest

/-- The slots of the values of a name after one more segment, the first item of which has the given
slot. -/
def recorded {ν : Type} (earlier : List Mention) (name : String) (slot : Nat)
    (present : Option ValueSlots) : Segment ν → Option ValueSlots
  | value edge _ _ =>
    if edge.name = name then
      some (ValueSlots.recorded (slot + 1) (Mention.indexOf earlier edge) present)
    else present
  | _ => present

/-- The slots of the values of a name after all segments. -/
def allRecorded {ν : Type} (earlier : List Mention) (name : String) (slot : Nat)
    (present : Option ValueSlots) : List (Segment ν) → Option ValueSlots
  | [] => present
  | segment :: rest =>
    allRecorded (earlier ++ segment.mention?.toList) name (slot + segment.items.length)
      (segment.recorded earlier name slot present) rest

theorem length_indexes (earlier : List Mention) (segment : Segment Node) :
    (segment.indexes earlier).length = segment.items.length := by
  cases segment with
  | content | arrayStart => rfl
  | embedded edge node => cases edge <;> rfl
  | value edge node shifts => simp [indexes, items, Nat.mul_comm]

/-- Each gap of a value stands for the index that its reference has. -/
theorem getElem?_indexes_value (earlier : List Mention) (edge : Reference) (node : Node)
    (h : count ≤ shifts) :
    ((value edge node shifts).indexes earlier)[1 + 2 * count]? =
      some (Mention.indexOf earlier edge) := by
  rw [Nat.add_comm]
  induction count generalizing shifts with
  | zero => rfl
  | succ count ih =>
    obtain ⟨rest, rfl⟩ : ∃ rest, shifts = rest + 1 := ⟨shifts - 1, by omega⟩
    exact ih (Nat.le_of_succ_le_succ h)

theorem getElem?_allIndexes (earlier : List Mention) (before after : List (Segment Node))
    (h : place < segment.items.length) :
    (allIndexes earlier (before ++ segment :: after))[width before + place]? =
      (segment.indexes (earlier ++ mentions before))[place]? := by
  induction before generalizing earlier with
  | nil =>
    rw [List.nil_append, allIndexes, mentions_nil, List.append_nil, width_nil, Nat.zero_add,
      List.getElem?_append_left]
    rwa [length_indexes]
  | cons first before ih =>
    have hplace : width (first :: before) + place =
        (first.indexes earlier).length + (width before + place) := by
      rw [length_indexes, width_cons, Nat.add_assoc]
    rw [List.cons_append, allIndexes, hplace, List.getElem?_append_right (Nat.le_add_right _ _),
      Nat.add_sub_cancel_left, ih, mentions_cons, List.append_assoc]

end Segment

namespace SlotTable

variable {scope : Scope} {earlier : List Mention}

theorem indexes_record (table : SlotTable) (name : String) (index : Option Nat) :
    (table.record name index).indexes = table.indexes := by
  unfold record
  cases index with
  | none => rfl
  | some index =>
    simp only
    split <;> rfl

theorem get?_record (table : SlotTable) (name : String) (index : Option Nat) (other : String) :
    (table.record name index).values.get? other =
      if name = other then
        some (ValueSlots.recorded table.indexes.size index (table.values.get? other))
      else table.values.get? other := by
  unfold record
  cases index with
  | none => exact Register.get?_insert ..
  | some index =>
    rw [Register.contains_eq, ← Register.get?_eq]
    cases hpresent : table.values.get? name with
    | none =>
      refine (Register.get?_insert ..).trans (ite_congr rfl ?_ fun _ => rfl)
      rintro rfl
      rw [hpresent]
      rfl
    | some present =>
      refine (Register.get?_modify ..).trans (ite_congr rfl ?_ fun _ => rfl)
      rintro rfl
      rw [hpresent]
      rfl

/-- The slots of shifts have the index of the value, each after one without, and record nothing. -/
theorem scan_shiftItems (scope : Scope) (name : String) (index : Option Nat) (table : SlotTable)
    (first count : Nat) (rest : List (Item Node)) :
    ∃ table' : SlotTable, table'.indexes.toList =
        table.indexes.toList ++ (List.replicate count [none, index]).flatten ∧
      table'.values = table.values ∧
      scan scope (some (name, index)) table (some .gap) (Segment.shiftItems first count ++ rest) =
        scan scope (some (name, index)) table' (some .gap) rest := by
  induction count generalizing first table with
  | zero => exact ⟨table, (List.append_nil _).symm, rfl, rfl⟩
  | succ count ih =>
    obtain ⟨table', hindexes, hvalues, hscan⟩ := ih ((table.push none).push index) (first + 1)
    refine ⟨table', ?_, hvalues, hscan⟩
    rw [hindexes]
    simp [push, List.replicate_succ]

/-- The pass over a segment. -/
theorem scan_items {after : Scope} (last : Last) (table : SlotTable) (before : Option (Item Node))
    (rest : List (Segment Node)) (h : scope.Passes earlier segment after) :
    ∃ (last' : Last) (table' : SlotTable) (before' : Option (Item Node)),
      table'.indexes.toList = table.indexes.toList ++ segment.indexes earlier ∧
      (∀ name, table'.values.get? name =
        segment.recorded earlier name table.indexes.size (table.values.get? name)) ∧
      scan scope last table before (segment.items ++ allItems rest) =
        scan after last' table' before' (allItems rest) := by
  cases h with
  | content | embedded =>
    refine ⟨last, table.push none, _, ?_, fun _ => rfl, rfl⟩
    simp [push, Segment.indexes]
  | @reserved edge node _ hconsume =>
    refine ⟨some (edge.name, none), (table.push none).push none, some (.embedded node), ?_,
      fun _ => rfl, ?_⟩
    · simp [push, Segment.indexes]
    · simp [Segment.items, scan, isValue, isArrayStart, hconsume]
  | arrayStart hconsume =>
    refine ⟨none, (table.push none).push none, some .arrayStart, ?_, fun _ => rfl, ?_⟩
    · simp [push, Segment.indexes]
    · simp [Segment.items, scan, isValue, isArrayStart, hconsume]
  | @value edge node shifts _ hconsume =>
    let index := Mention.indexOf earlier edge
    obtain ⟨table', hindexes, hvalues, hscan⟩ := scan_shiftItems after edge.name index
      (((table.push index).record edge.name index).push index) 1 shifts (allItems rest)
    refine ⟨some (edge.name, index), table', some .gap, ?_, ?_, ?_⟩
    · rw [hindexes]
      simp [push, indexes_record, Segment.indexes, index]
    · intro name
      have hslot : (table.push index).indexes.size = table.indexes.size + 1 := by simp [push]
      rw [hvalues, Segment.recorded, ← hslot]
      exact get?_record (table.push index) edge.name index name
    · rw [← hscan]
      simp [Segment.items, scan, isValue, isArrayStart, hconsume, index]

/-- The pass over all segments. -/
theorem scan_allItems {segments : List (Segment Node)} (last : Last) (table : SlotTable)
    (before : Option (Item Node)) (h : scope.PassesAll earlier segments) :
    ∃ table' : SlotTable, table'.indexes.toList =
        table.indexes.toList ++ Segment.allIndexes earlier segments ++ [none] ∧
      (∀ name, table'.values.get? name =
        Segment.allRecorded earlier name table.indexes.size (table.values.get? name) segments) ∧
      scan scope last table before (allItems segments) = .ok table' := by
  induction h generalizing last table before with
  | nil => exact ⟨table.push none, by simp [push, Segment.allIndexes], fun _ => rfl, rfl⟩
  | @cons _ _ segment _ rest hpasses _ ih =>
    obtain ⟨last', table', before', hindexes, hvalues, hscan⟩ :=
      scan_items last table before rest hpasses
    obtain ⟨final, hfinal, hrecorded, hrest⟩ := ih last' table' before'
    refine ⟨final, ?_, fun name => ?_, by rw [Segment.allItems_cons, hscan, hrest]⟩
    · rw [hfinal, hindexes, Segment.allIndexes]
      simp
    · have hslot : table'.indexes.size = table.indexes.size + segment.items.length := by
        rw [← Array.length_toList, hindexes, List.length_append, Array.length_toList,
          Segment.length_indexes]
      rw [hrecorded, hvalues, hslot, Segment.allRecorded]

/-- The table of a node that is made of segments. -/
theorem of_toNode {outline : Outline} (h : outline.Laid) :
    ∃ table, SlotTable.of outline.toNode = .ok table ∧
      table.indexes.toList = none :: (Segment.allIndexes [] outline.segments ++ [none]) ∧
      ∀ name, table.values.get? name = Segment.allRecorded [] name 1 none outline.segments := by
  obtain ⟨table, hindexes, hvalues, hscan⟩ :=
    scan_allItems none first none (Scope.counts_empty.passesAll h.plain h.orderly)
  exact ⟨table, hscan, hindexes, hvalues⟩

end SlotTable

/-! ### Arrivals -/

namespace Node

/-- After the values that stood there before come the last one and those given. -/
theorem getElem?_historyOnto_add (value : Except LookupError Node)
    (later : List (Except LookupError Node)) (shifts place : Nat) :
    (historyOnto value later shifts)[shifts + place]? = (value :: later)[place]? := by
  induction shifts generalizing value later place with
  | zero => rw [historyOnto, Nat.zero_add]
  | succ shifts ih =>
    have hplace : shifts + 1 + place = shifts + (place + 1) := by omega
    rw [historyOnto, hplace, ih]
    rfl

/-- Each value that stood there before was taken back by the next one. -/
theorem getElem?_historyOnto_of_lt (value : Except LookupError Node)
    (later : List (Except LookupError Node)) (h : place < shifts) :
    (historyOnto value later shifts)[place]? =
      ((historyOnto value later shifts)[place + 1]?).map (·.bind heldValue) := by
  induction shifts generalizing value later with
  | zero => exact absurd h (Nat.not_lt_zero _)
  | succ shifts ih =>
    rw [historyOnto]
    rcases Nat.lt_succ_iff_lt_or_eq.mp h with hlt | rfl
    · exact ih _ _ hlt
    · have hlast := getElem?_historyOnto_add (value.bind heldValue) (value :: later) place
      have hzero := hlast 0
      rw [Nat.add_zero] at hzero
      rw [hzero, hlast 1]
      rfl

end Node

namespace Survey

theorem arrivalsFrom_drop (survey : Survey) (slot count : Nat) (items : List (Item Place)) :
    survey.arrivalsFrom (slot + count) (items.drop count) =
      (survey.arrivalsFrom slot items).drop count := by
  induction count generalizing slot items with
  | zero => rfl
  | succ count ih =>
    cases items with
    | nil => rfl
    | cons item rest =>
      have hslot : slot + (count + 1) = slot + 1 + count := by omega
      rw [hslot, List.drop_succ_cons, ih, arrivalsFrom, List.drop_succ_cons]

theorem getElem?_arrivalsFrom (survey : Survey) (slot position offset : Nat)
    (items : List (Item Place)) :
    (survey.arrivalsFrom slot items)[position + offset]? =
      (survey.arrivalsFrom (slot + position) (items.drop position))[offset]? := by
  rw [arrivalsFrom_drop, List.getElem?_drop]

/-- Where no shift follows, the value itself came. -/
theorem arrivalsFrom_of_last (survey : Survey) (slot : Nat) (hlt : position < items.length)
    (h : ∀ index, items[position + 1]? ≠ some (.shift index)) :
    (survey.arrivalsFrom slot items)[position]? = some (survey.valueAt (slot + position)) := by
  have hfirst := getElem?_arrivalsFrom survey slot position 0 items
  rw [List.drop_eq_getElem_cons hlt, Nat.add_zero, arrivalsFrom, List.getElem?_cons_zero] at hfirst
  rw [hfirst, arrival]
  intro index _ _ _ _ hrest _
  have hshift := congrArg (fun rest => rest[0]?) hrest
  rw [List.getElem?_drop] at hshift
  exact absurd hshift (h index)

/-- Where a shift follows, what came was taken back by what came next. -/
theorem arrivalsFrom_of_shift (survey : Survey) (slot : Nat) {index : Nat}
    {next : Except Error Place} (hshift : items[position + 1]? = some (.shift index))
    (hgap : items[position + 2]? = some .gap)
    (hnext : (survey.arrivalsFrom slot items)[position + 2]? = some next) :
    (survey.arrivalsFrom slot items)[position]? = some (do (← next).held.mapError .lookup) := by
  obtain ⟨hlt, hgap⟩ := List.getElem?_eq_some_iff.mp hgap
  obtain ⟨hlt', hshift⟩ := List.getElem?_eq_some_iff.mp hshift
  have hfirst := getElem?_arrivalsFrom survey slot position 0 items
  rw [getElem?_arrivalsFrom] at hnext
  have hdrop : items.drop position =
      items[position] :: .shift index :: .gap :: items.drop (position + 2 + 1) := by
    rw [List.drop_eq_getElem_cons (by omega), List.drop_eq_getElem_cons hlt', hshift,
      List.drop_eq_getElem_cons hlt, hgap]
  rw [hdrop] at hfirst hnext
  rw [Nat.add_zero] at hfirst
  obtain rfl := Option.some.inj hnext
  exact hfirst

end Survey

/-- After the last gap of a value there is no shift. -/
theorem Segment.getElem?_ne_shift {ν : Type} (before after : List (Segment ν)) (edge : Reference)
    (node : ν) (shifts index : Nat) :
    (allItems (before ++ value edge node shifts :: after))[
      width before + (1 + 2 * shifts) + 1]? ≠ some (.shift index) := by
  have hlength : width before + (1 + 2 * shifts) + 1 =
      width before + ((value edge node shifts).items.length + 0) := by
    rw [length_items_value]
    omega
  rw [allItems_append, allItems_cons, hlength, List.getElem?_append_right (Nat.le_add_right _ _),
    Nat.add_sub_cancel_left, List.getElem?_append_right (Nat.le_add_right _ _),
    Nat.add_sub_cancel_left]
  cases after with
  | nil => rintro ⟨⟩
  | cons segment after =>
    cases segment with
    | embedded edge node => cases edge <;> rintro ⟨⟩
    | _ => rintro ⟨⟩

/-! ### Gaps and values -/

theorem Survey.keyAt_of_owner {survey : Survey} {table : SlotTable} {edge : Reference}
    {owner : Nat} (ht : survey.table = .ok table)
    (hg : survey.directory.items[position]? = some .gap)
    (ho : Item.owner? survey.directory.items position = some (edge, owner)) :
    survey.keyAt (position + 1) = .ok ⟨edge.name, (table.indexes[position + 1]?).join⟩ := by
  simp only [keyAt, ht, hg, ho]
  rfl

namespace Place.Segmented

variable {place : Place} {outline : Outline} {located before after : List (Segment Place)}
  {edge : Reference} {value : Place} (h : place.Segmented outline located)
  (hs : located = before ++ .value edge value shifts :: after)

include h hs

/-- The survey finds the key of a value in each of its gaps. -/
theorem keyAt (hcount : count ≤ shifts) :
    (Survey.of place).keyAt (width before + (1 + 2 * count) + 1) =
      .ok ⟨edge.name, Mention.indexOf (mentions before) edge⟩ := by
  obtain ⟨table, htable, hindexes, -⟩ := SlotTable.of_toNode h.laid
  have htable : (Survey.of place).table = .ok table := by
    rw [← htable, ← h.node]
    rfl
  have hgap := h.getElem?_directory (width before + (1 + 2 * count))
  have howner := Segment.owner?_gap before after edge value hcount
  rw [← hs, ← h.items] at howner
  rw [hs, getElem?_gap before after edge value hcount] at hgap
  have hplace : 1 + 2 * count < (Segment.value edge value.node shifts).items.length := by
    rw [Segment.length_items_value]
    omega
  have hindex := Segment.getElem?_allIndexes [] (before.map (Segment.map Place.node))
    (after.map (Segment.map Place.node)) hplace
  rw [Segment.getElem?_indexes_value _ edge value.node hcount, List.nil_append,
    Segment.width_map, Segment.mentions_map] at hindex
  have hslot : table.indexes[width before + (1 + 2 * count) + 1]? =
      some (Mention.indexOf (mentions before) edge) := by
    rw [← Array.getElem?_toList, hindexes, h.split hs, List.getElem?_cons_succ]
    exact (List.getElem?_append_left (List.getElem?_eq_some_iff.mp hindex).1).trans hindex
  rw [Survey.keyAt_of_owner htable hgap howner, hslot]
  rfl

/-- The survey traces each gap of a value to its binding. -/
theorem survey_bindingAt (hcount : count ≤ shifts) :
    (Survey.of place).bindingAt (width before + (1 + 2 * count) + 1) = .ok ⟨edge, value⟩ := by
  have hbinding : place.directory.binding edge.name
      (Mention.indexOf (mentions before) edge) = .ok ⟨edge, value⟩ := by
    rw [h.directory, hs]
    exact Segment.binding_of_value (hs ▸ h.orderly) (hs ▸ h.unmixed)
  rw [Survey.bindingAt, h.keyAt hs hcount]
  exact congrArg (Except.mapError Error.lookup) hbinding

/-- The survey traces each gap of a value to its place. -/
theorem valueAt (hcount : count ≤ shifts) :
    (Survey.of place).valueAt (width before + (1 + 2 * count) + 1) = .ok value := by
  rw [Survey.valueAt, h.survey_bindingAt hs hcount]
  rfl

/-- The value itself came to its last gap. -/
theorem arrivals_of_last :
    (Survey.of place).arrivals[width before + (1 + 2 * shifts)]? = some (.ok value) := by
  have hitems : place.directory.items.toList = allItems located := by rw [h.items]
  have hgap := getElem?_gap before after edge value (Nat.le_refl shifts)
  rw [← hs] at hgap
  have hlast : (Survey.of place).arrivals[width before + (1 + 2 * shifts)]? =
      some ((Survey.of place).valueAt (1 + (width before + (1 + 2 * shifts)))) := by
    rw [← Array.getElem?_toList]
    refine Survey.arrivalsFrom_of_last (Survey.of place) 1 ?_ fun index => ?_
    · exact hitems ▸ (List.getElem?_eq_some_iff.mp hgap).1
    · show place.directory.items.toList[_]? ≠ _
      rw [hitems, hs]
      exact Segment.getElem?_ne_shift before after edge value shifts index
  rw [hlast, Nat.add_comm 1, h.valueAt hs (Nat.le_refl shifts)]

/-- What came to any other gap was taken back by what came to the next one. -/
theorem arrivals_of_held {next inner : Place} (hcount : count < shifts)
    (hnext : (Survey.of place).arrivals[width before +
      (1 + 2 * (count + 1))]? = some (.ok next)) (hheld : next.held = .ok inner) :
    (Survey.of place).arrivals[width before + (1 + 2 * count)]? = some (.ok inner) := by
  have hitems : place.directory.items.toList = allItems located := by rw [h.items]
  have hfollows : width before + (1 + 2 * (count + 1)) =
      width before + (1 + 2 * count) + 2 := by omega
  have hbetween : width before + (1 + 2 * count) + 1 = width before + (2 + 2 * count) := by omega
  have hgap := getElem?_gap before after edge value hcount
  have hshift := Segment.getElem?_shift before after edge value hcount
  rw [← hs, ← hitems, hfollows] at hgap
  rw [← hs, ← hitems, ← hbetween] at hshift
  rw [hfollows, ← Array.getElem?_toList] at hnext
  rw [← Array.getElem?_toList]
  refine (Survey.arrivalsFrom_of_shift (Survey.of place) 1 hshift hgap hnext).trans ?_
  show some (next.held.mapError Error.lookup) = _
  rw [hheld]
  rfl

/-- A value came to each gap, the one that the history of the last value says, and from it as many
values can be traced as came before. It meets what the last value and all beneath it meet. -/
theorem exists_arrival {meets : Node → Prop} (hunmixed : ∀ node, meets node → node.isUnmixed = true)
    (hkids : ∀ node, meets node → ∀ kid ∈ node.kids, meets kid) (hmeets : meets value.node)
    (hcount : count ≤ shifts) :
    ∃ arrival : Place,
      (Survey.of place).arrivals[width before + (1 + 2 * count)]? = some (.ok arrival) ∧
      (value.node.history shifts)[count]? = some (.ok arrival.node) ∧
      arrival.node.Sound count ∧ meets arrival.node ∧ (count = shifts → arrival = value) := by
  -- from the last gap back, since each value is found from the one after it
  induction hk : shifts - count generalizing count with
  | zero =>
    obtain rfl : count = shifts := by omega
    have hmem : .value edge value count ∈ located := hs ▸ List.mem_append_cons_self
    have hsound : ((Segment.value edge value count).map Place.node).IsSound := h.sound_of_mem hmem
    exact ⟨value, h.arrivals_of_last hs, Node.getElem?_historyOnto_add (.ok value.node) [] count 0,
      hsound, hmeets, fun _ => rfl⟩
  | succ k ih =>
    have hlt : count < shifts := by omega
    obtain ⟨next, hnext, hhistory, hsound, hmeets, -⟩ := ih hlt (by omega)
    obtain ⟨inner, hheld, hvalue, hkid, hinner⟩ := exists_held hsound (hunmixed _ hmeets)
    refine ⟨inner, h.arrivals_of_held hs hlt hnext hheld, ?_, hinner, hkids _ hmeets _ hkid,
      fun heq => absurd heq (Nat.ne_of_lt hlt)⟩
    rw [Node.history, Node.getElem?_historyOnto_of_lt _ _ hlt]
    exact (congrArg _ hhistory).trans (congrArg some hvalue)

end Place.Segmented

end TagTree
