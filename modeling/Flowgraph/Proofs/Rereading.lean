import Flowgraph.Proofs.Partition
import Flowgraph.Proofs.Rounds
import Flowgraph.Proofs.Sameness
import Flowgraph.Proofs.Unchanged
/-! Node records that are written and read again. A record is written in one form, whichever names, shorthands and nulls
it used, and that form is read as the same record. So a deployment does not change when its nodes are written anew. -/
namespace Flowgraph

/-! ## Tables and lists -/

namespace Dict

variable {α : Type} {d d' : Dict α} {entries : List (String × α)} {key : String} {value : α}

theorem get?_eq_some_iff (hd : d.Sorted) : d.get? key = some value ↔ (key, value) ∈ d :=
  ⟨mem_of_get?, get?_of_mem hd⟩

/-- Tables in which the same is found are the same. -/
theorem Sorted.ext (hd : d.Sorted) (hd' : d'.Sorted) (h : ∀ key, d.get? key = d'.get? key) : d = d' := by
  have hmem (entry : String × α) : entry ∈ d ↔ entry ∈ d' := by
    rw [← get?_eq_some_iff hd, h, get?_eq_some_iff hd']
  have hperm : d.Perm d' := (List.perm_ext_iff_of_nodup hd.nodup.of_map hd'.nodup.of_map).mpr hmem
  have hlt : d.Pairwise (fun a b => a.1 < b.1) := List.pairwise_map.mp hd
  have hlt' : d'.Pairwise (fun a b => a.1 < b.1) := List.pairwise_map.mp hd'
  exact hperm.eq_of_pairwise (fun _ _ _ _ hab hba => absurd hba hab.asymm) hlt hlt'

theorem get?_ofList_eq_some_iff (h : (entries.map (·.1)).Nodup) :
    (ofList entries).get? key = some value ↔ (key, value) ∈ entries := by
  rw [get?_eq_some_iff (sorted_ofList entries), (perm_ofList h).mem_iff]

end Dict

namespace Json

theorem asStr?_eq_some {v : Json} {s : String} : v.asStr? = some s ↔ v = .str s := by
  cases v <;> simp [asStr?]

/-- A list whose items are read back is read back. -/
theorem list?_arr_map {α : Type} {read : Json → Option α} (write : α → Json) (h : ∀ x, read (write x) = some x)
    (xs : List α) : list? read (.arr (xs.map write)) = some xs := by
  show (xs.map write).mapM read = some xs
  induction xs with
  | nil => rfl
  | cons x xs ih =>
    rw [List.map_cons, List.mapM_cons, h, ih]
    rfl

/-- What is read as a list is an array. If each item has a form in which it is written, so has the whole. -/
theorem map_of_list? {α : Type} {read : Json → Option α} {write : α → Json} (form : Json → Json)
    (h : ∀ v x, read v = some x → form v = write x) {v : Json} {xs : List α} (hv : list? read v = some xs) :
    ∃ items, v = .arr items ∧ items.map form = xs.map write := by
  obtain ⟨items, harr, hitems⟩ := Option.bind_eq_some_iff.mp hv
  obtain rfl : v = .arr items := by
    cases v <;> cases harr
    rfl
  refine ⟨items, rfl, ?_⟩
  clear hv harr
  induction items generalizing xs with
  | nil =>
    cases hitems
    rfl
  | cons item items ih =>
    rw [List.mapM_cons] at hitems
    obtain ⟨x, hx, hrest⟩ := Option.bind_eq_some_iff.mp hitems
    obtain ⟨others, hothers, he⟩ := Option.bind_eq_some_iff.mp hrest
    cases he
    rw [List.map_cons, List.map_cons, h item x hx, ih hothers]

end Json

/-! ## What a record says -/

namespace Record

variable {fields : Dict Json} {r : Record} {key name other : String} {v : Json}

/-- What the fields of an object say, name by name. -/
structure Declares (fields : Dict Json) (r : Record) : Prop where
  id : Dict.get? fields "id" = some (.str r.id)
  type : Dict.get? fields "type" = some (.str r.type)
  container : ∃ z, either fields "z" "parentFlowId" = some z ∧ Json.optional z Json.asStr? = some r.container
  wires : Json.optional (Dict.get? fields "wires") (Json.list? port?) = some r.wires
  disabled : ∃ d, either fields "d" "disabled" = some d ∧ Json.orElse d false Json.asBool? = some r.disabled
  properties : r.properties = fields.filter (!reserved.contains ·.1)

theorem ofJson?_obj_eq_some_iff : ofJson? (.obj fields) = some r ↔ Declares fields r := by
  unfold ofJson?
  simp only [Json.asObj?, bind, Option.bind_some, Option.bind_eq_some_iff, Json.asStr?_eq_some]
  constructor
  · rintro ⟨id, ⟨_, hid, rfl⟩, type, ⟨_, htype, rfl⟩, z, hz, _, hc, _, hw, d, hd, _, hdis, he⟩
    cases he
    exact ⟨hid, htype, ⟨z, hz, hc⟩, hw, ⟨d, hd, hdis⟩, rfl⟩
  · rintro ⟨hid, htype, ⟨z, hz, hc⟩, hw, ⟨d, hd, hdis⟩, hp⟩
    refine ⟨_, ⟨_, hid, rfl⟩, _, ⟨_, htype, rfl⟩, z, hz, _, hc, _, hw, d, hd, _, hdis, ?_⟩
    rw [← hp]
    rfl

theorem exists_fields (h : ofJson? v = some r) : ∃ fields, v = .obj fields := by
  obtain ⟨fields, hf, -⟩ := Option.bind_eq_some_iff.mp h
  cases v <;> cases hf
  exact ⟨_, rfl⟩

/-- The properties are those of a record that was read: a table, without the fields that mean something else. -/
structure Proper (r : Record) : Prop where
  sorted : r.properties.Sorted
  unreserved : ∀ key ∈ r.properties.keys, key ∉ reserved

theorem Declares.proper (hs : fields.Sorted) (h : Declares fields r) : Proper r where
  sorted := h.properties ▸ hs.filter _
  unreserved key hkey := by
    rw [h.properties] at hkey
    obtain ⟨entry, hentry, rfl⟩ := List.mem_map.mp hkey
    simpa using (List.mem_filter.mp hentry).2

/-! ## What is written -/

/-- The fields that are written for a record. -/
def entries (r : Record) : List (String × Json) :=
  r.properties ++ [("id", .str r.id), ("type", .str r.type), ("d", .bool r.disabled)] ++
    r.container.toList.map (fun z => ("z", .str z)) ++ r.wires.toList.map fun wires => ("wires", wiresJson wires)

/-- The object that is written for a record. -/
def written (r : Record) : Dict Json := .ofList r.entries

theorem toJson_eq (r : Record) : r.toJson = .obj r.written := rfl

theorem nodup_entries (hr : r.Proper) : (r.entries.map (·.1)).Nodup := by
  have hown : r.properties.keys.Nodup := hr.sorted.nodup
  have hapart (key : String) (hkey : key ∈ reserved) : key ∉ r.properties.keys := fun h => hr.unreserved key h hkey
  have hnames : r.entries.map (·.1) = r.properties.keys ++ (["id", "type", "d"] ++
      r.container.toList.map (fun _ => "z") ++ r.wires.toList.map fun _ => "wires") := by
    simp [entries, Dict.keys, Function.comp_def]
  rw [hnames, List.nodup_append']
  refine ⟨hown, ?_, fun key hkey hother => hapart key ?_ hkey⟩
  · cases r.container <;> cases r.wires <;> simp
  · revert hother
    cases r.container <;> cases r.wires <;> simp [reserved] <;> grind

theorem sorted_written (r : Record) : r.written.Sorted := Dict.sorted_ofList _

theorem get?_written (hr : r.Proper) : r.written.get? key = some v ↔ (key, v) ∈ r.entries :=
  Dict.get?_ofList_eq_some_iff (nodup_entries hr)

theorem not_mem_properties (hr : r.Proper) (hkey : key ∈ reserved) (v : Json) : (key, v) ∉ r.properties :=
  fun h => hr.unreserved key (List.mem_map_of_mem h) hkey

/-- Under the name of a property there is the property. -/
theorem get?_written_property (hr : r.Proper) (hkey : key ∉ reserved) : r.written.get? key = r.property? key := by
  simp only [reserved, List.mem_cons, List.not_mem_nil, or_false, not_or] at hkey
  obtain ⟨hid, htype, hz, -, hw, hd, -⟩ := hkey
  refine Option.ext fun v => ?_
  rw [get?_written hr, property?, Dict.get?_eq_some_iff hr.sorted]
  simp [entries, hid, htype, hd, Ne.symm hz, Ne.symm hw]

section Reserved
variable (hr : r.Proper)
include hr

theorem get?_written_id : r.written.get? "id" = some (.str r.id) :=
  (get?_written hr).mpr (by simp [entries])

theorem get?_written_type : r.written.get? "type" = some (.str r.type) :=
  (get?_written hr).mpr (by simp [entries])

theorem get?_written_disabled : r.written.get? "d" = some (.bool r.disabled) :=
  (get?_written hr).mpr (by simp [entries])

theorem get?_written_container : r.written.get? "z" = r.container.map .str := by
  refine Option.ext fun v => ?_
  have hown := not_mem_properties hr (show "z" ∈ reserved by simp [reserved]) v
  rw [get?_written hr]
  simp [entries, hown, eq_comm]

theorem get?_written_wires : r.written.get? "wires" = r.wires.map wiresJson := by
  refine Option.ext fun v => ?_
  have hown := not_mem_properties hr (show "wires" ∈ reserved by simp [reserved]) v
  rw [get?_written hr]
  simp [entries, hown, eq_comm]

/-- Each field is written under one of its names only. -/
theorem get?_written_alias (hname : name = "parentFlowId" ∨ name = "disabled") : r.written.get? name = none := by
  refine Option.eq_none_iff_forall_ne_some.mpr fun v hv => ?_
  have hown := not_mem_properties hr (show name ∈ reserved by rcases hname with rfl | rfl <;> simp [reserved]) v
  have hmem := (get?_written hr).mp hv
  rcases hname with rfl | rfl <;> simp [entries, hown] at hmem

/-! ## Reading it again -/

omit hr in
theorem list?_wiresJson (wires : Wires) : Json.list? port? (wiresJson wires) = some wires := by
  have hport (port : List NodeId) : port? (.arr (port.map .str)) = some port :=
    Json.list?_arr_map .str (fun _ => rfl) port
  exact Json.list?_arr_map _ hport wires

/-- What is written says what the record says. -/
theorem declares_written : Declares r.written r where
  id := get?_written_id hr
  type := get?_written_type hr
  container := by
    refine ⟨r.container.map .str, ?_, ?_⟩
    · rw [either, get?_written_container hr, get?_written_alias hr (.inl rfl)]
      cases r.container <;> rfl
    · cases r.container <;> rfl
  wires := by
    rw [get?_written_wires hr]
    cases r.wires with
    | none => rfl
    | some wires => exact congrArg (Option.map some) (list?_wiresJson wires)
  disabled := by
    refine ⟨some (.bool r.disabled), ?_, rfl⟩
    rw [either, get?_written_disabled hr, get?_written_alias hr (.inr rfl)]
  properties := by
    refine hr.sorted.ext ((sorted_written r).filter _) fun key => ?_
    rw [Dict.get?_filter (sorted_written r)]
    by_cases hkey : key ∈ reserved
    · have hnone : r.properties.get? key = none :=
        Option.eq_none_iff_forall_ne_some.mpr fun v hv => not_mem_properties hr hkey v (Dict.mem_of_get? hv)
      simp [hkey, hnone]
    · rw [get?_written_property hr hkey, property?]
      cases r.properties.get? key <;> simp [hkey, Option.filter]

end Reserved

/-! ## The written form -/

/-- A port as a list; an id alone stands for a list of one. -/
def spread : Json → Json
  | .str id => .arr [.str id]
  | v => v

/-- Wiring with every port as a list. -/
def spreadPorts : Json → Json
  | .arr ports => .arr (ports.map spread)
  | v => v

/-- An object in the form in which records are written: each field under one name, nulls left out and defaults
filled in, every port a list. All other fields are as they were, and there are no new ones. -/
structure Normal (fields w : Dict Json) : Prop where
  sorted : w.Sorted
  kept : ∀ key, key ∉ reserved ∨ key = "id" ∨ key = "type" → w.get? key = fields.get? key
  container : w.get? "z" = ((fields.get? "z").or (fields.get? "parentFlowId")).filter (· ≠ .null)
  wires : w.get? "wires" = ((fields.get? "wires").filter (· ≠ .null)).map spreadPorts
  disabled : w.get? "d" = some (((fields.get? "d").or (fields.get? "disabled")).getD (.bool false))
  aliases : w.get? "parentFlowId" = none ∧ w.get? "disabled" = none

theorem spread_of_port? {ids : List NodeId} (h : port? v = some ids) : spread v = .arr (ids.map .str) := by
  unfold port? at h
  split at h
  · cases h
    rfl
  · obtain ⟨items, rfl, hitems⟩ := Json.map_of_list? (fun v => v) (fun _ _ => Json.asStr?_eq_some.mp) h
    rw [← hitems, List.map_id']
    rfl

theorem spreadPorts_of_list? {wires : Wires} (h : Json.list? port? v = some wires) :
    spreadPorts v = wiresJson wires := by
  obtain ⟨ports, rfl, hports⟩ := Json.map_of_list? spread (fun _ _ => spread_of_port?) h
  rw [spreadPorts, hports, wiresJson]

/-- Of a field with two names the one that is there counts. -/
theorem either_eq_some {found : Option Json} (h : either fields name other = some found) :
    found = (fields.get? name).or (fields.get? other) := by
  unfold either at h
  split at h <;> simp_all

/-- Null is no value: it is read like a field that is not there. -/
theorem map_of_optional {α : Type} {read : Json → Option α} {write : α → Json} (form : Json → Json)
    (h : ∀ v x, read v = some x → form v = write x) {v : Option Json} {x : Option α}
    (hx : Json.optional v read = some x) : (v.filter (· ≠ .null)).map form = x.map write := by
  unfold Json.optional at hx
  split at hx
  · cases hx
    rfl
  · cases hx
    rfl
  · rename_i v hnull
    obtain ⟨y, hy, rfl⟩ := Option.map_eq_some_iff.mp hx
    have hne : v ≠ .null := hnull
    simp [Option.filter, hne, h v y hy]

theorem Declares.normal (hs : fields.Sorted) (h : Declares fields r) : Normal fields r.written where
  sorted := sorted_written r
  kept key hkey := by
    have hr := h.proper hs
    rcases hkey with hkey | rfl | rfl
    · rw [get?_written_property hr hkey, property?, h.properties, Dict.get?_filter hs]
      cases fields.get? key <;> simp [hkey, Option.filter]
    · rw [get?_written_id hr, h.id]
    · rw [get?_written_type hr, h.type]
  container := by
    obtain ⟨z, hz, hread⟩ := h.container
    rw [get?_written_container (h.proper hs), ← either_eq_some hz,
      ← map_of_optional (fun v => v) (fun _ _ => Json.asStr?_eq_some.mp) hread, Option.map_id']
  wires := by
    rw [get?_written_wires (h.proper hs), map_of_optional spreadPorts (fun _ _ => spreadPorts_of_list?) h.wires]
  disabled := by
    obtain ⟨d, hd, hread⟩ := h.disabled
    rw [get?_written_disabled (h.proper hs), ← either_eq_some hd]
    cases d with
    | none =>
      have hread : r.disabled = false := (Option.some.inj hread).symm
      rw [hread]
      rfl
    | some v =>
      obtain rfl : v = .bool r.disabled := by
        cases v <;> cases hread
        rfl
      rfl
  aliases := ⟨get?_written_alias (h.proper hs) (.inl rfl), get?_written_alias (h.proper hs) (.inr rfl)⟩

end Record

/-! ## Deployments -/

namespace Diff

open Deployment

variable {d : Deployment} {rs : List Record}

theorem sameEnv_refl (env : List EnvEntry) : sameEnv env env = true := by
  induction env with
  | nil => rfl
  | cons e env ih => simp [sameEnv, ih, EnvEntry.same, (Json.same_iff e.value e.value).mpr rfl]

theorem rel_self {α : Type} {R : α → α → Prop} (h : ∀ a, R a a) (x : Option α) : Option.Rel R x x := by
  cases x with
  | none => exact .none
  | some a => exact .some (h a)

theorem SameRecords.refl (d : Deployment) : SameRecords d d where
  tabs _ := rel_self (fun _ => ⟨rfl, sameEnv_refl _, rfl⟩) _
  templates _ := rel_self (fun _ => ⟨rfl, rfl, rfl, rfl, rfl, sameEnv_refl _⟩) _
  nodes _ := rel_self (fun _ => ⟨rfl, rfl, rfl, rfl, Json.sameFields_refl _⟩) _

theorem direct_self (hd : Proper d rs) : direct d d = .none := by
  have hnone (k : Mark) : (direct d d).under k = [] :=
    List.eq_nil_iff_forall_not_mem.mpr fun id hid =>
      (SameRecords.refl d).not_directly hd hd ((mem_direct_iff hd).mp hid)
  generalize direct d d = m at hnone
  cases m
  exact congr (congr (congr (congr (congrArg Marks.mk (hnone .added)) (hnone .changed)) (hnone .removed))
    (hnone .rewired)) (hnone .template)

/-- A deployment does not differ from itself, not even by links. -/
theorem between?_self (hd : Proper d rs) : between? d d = some ⟨[], [], [], [], []⟩ := by
  have haffected : affected d .none = [] := by simp [affected, Marks.none]
  rw [between?, direct_self hd, settle?_succ, if_pos haffected]
  rfl

end Diff

namespace Deployment

variable {v : Json} {item : Item} {found : List Item} {records : List Json} {d : Deployment}

/-- The record of a node, written anew; those of tabs and templates stay as they are. -/
def rewritten (v : Json) : Json := ((nodeOf? v).map Record.toJson).getD v

/-- The fields of an object are in order. -/
def FieldsSorted (v : Json) : Prop := ∀ fields, v = .obj fields → Dict.Sorted fields

theorem fieldsSorted_sorted (v : Json) : FieldsSorted v.sorted := by
  intro fields h
  cases v with
  | obj xs =>
    cases h
    exact Dict.sorted_ofList _
  | _ => cases h

/-- Records that come as text always have their fields in order. -/
theorem fieldsSorted_of_read? {text : String} (h : Json.read? text = some (.arr records)) :
    ∀ v ∈ records, FieldsSorted v := by
  obtain ⟨unsorted, -, hsorted⟩ := Option.map_eq_some_iff.mp h
  have hitems (items : List Json) : ∀ v ∈ Json.sortedItems items, FieldsSorted v := by
    induction items with
    | nil => simp [Json.sortedItems]
    | cons item items ih => exact List.forall_mem_cons.mpr ⟨fieldsSorted_sorted item, ih⟩
  cases unsorted with
  | arr items =>
    cases hsorted
    exact hitems items
  | _ => cases hsorted

/-- A record that is written anew is read as before. -/
theorem Reads.rewritten (hs : FieldsSorted v) (h : Reads v item) : Reads (rewritten v) item := by
  unfold Deployment.rewritten
  cases hnode : nodeOf? v with
  | none => exact h
  | some r =>
    obtain ⟨-, -, -, hitem⟩ := h.declared
    rw [hnode] at hitem
    obtain rfl : item = .node r := by
      cases item <;> cases hitem
      rfl
    unfold nodeOf? at hnode
    split at hnode
    · cases hnode
    · rename_i hkind
      obtain ⟨fields, rfl⟩ := Record.exists_fields hnode
      have hfields := Record.ofJson?_obj_eq_some_iff.mp hnode
      have hr := hfields.proper (hs fields rfl)
      rw [text?_obj hfields.type, Option.some.injEq, Option.some.injEq, not_or] at hkind
      have hid := text?_obj (Record.get?_written_id hr)
      have htype := text?_obj (Record.get?_written_type hr)
      refine ⟨r.type, identify_eq_ok.mpr ⟨hid, htype⟩, ?_⟩
      rw [item?, if_neg hkind.1, if_neg hkind.2]
      exact congrArg (Option.map Item.node) (Record.ofJson?_obj_eq_some_iff.mpr (Record.declares_written hr))

theorem reads_rewritten (hs : ∀ v ∈ records, FieldsSorted v) (h : List.Forall₂ Reads records found) :
    List.Forall₂ Reads (records.map rewritten) found := by
  induction h with
  | nil => exact .nil
  | cons hread _ ih =>
    exact .cons (hread.rewritten (hs _ List.mem_cons_self)) (ih fun v hv => hs v (List.mem_cons_of_mem _ hv))

/-- With its nodes written anew a list is read as the same deployment. -/
theorem parse_rewritten (hs : ∀ v ∈ records, FieldsSorted v) (h : parse records = .ok d) :
    parse (records.map rewritten) = .ok d := by
  unfold parse at h ⊢
  cases hfound : items [] records with
  | error fault =>
    rw [hfound] at h
    cases h
  | ok found =>
    obtain ⟨hreads, hrest⟩ := items_eq_ok.mp hfound
    rw [items_eq_ok.mpr ⟨reads_rewritten hs hreads, hrest⟩, ← hfound, h]

/-- A record that is read is written in one form, and that form is read as the same record, which is written in the
same form again. So a deployment whose node records are all written anew is the same deployment: nothing differs. -/
theorem records_read_back :
    (∀ (fields : Dict Json) (r : Record), fields.Sorted → Record.ofJson? (.obj fields) = some r →
      ∃ w, r.toJson = .obj w ∧ Record.Normal fields w ∧ Record.ofJson? r.toJson = some r) ∧
    ∀ (records : List Json) (d : Deployment), (∀ v ∈ records, FieldsSorted v) → parse records = .ok d →
      parse (records.map rewritten) = .ok d ∧ Diff.between? d d = some ⟨[], [], [], [], []⟩ := by
  refine ⟨fun fields r hs h => ?_, fun records d hs h => ⟨parse_rewritten hs h, ?_⟩⟩
  · have hfields := Record.ofJson?_obj_eq_some_iff.mp h
    have hagain := Record.ofJson?_obj_eq_some_iff.mpr (Record.declares_written (hfields.proper hs))
    exact ⟨r.written, Record.toJson_eq r, hfields.normal hs, hagain⟩
  · obtain ⟨rs, hd⟩ := parse_proper h
    exact Diff.between?_self hd

/-- A node that is declared with other names, an id in place of a list, nulls, and properties of its own. -/
def looseFields : Dict Json := [
  ("disabled", .bool true), ("env", .null), ("id", .str "n"), ("parentFlowId", .str "t"), ("type", .str "test"),
  ("wires", .arr [.str "a", .arr [.str "b", .str "c"], .arr []]), ("x", .nat 1)]

/-- The node they declare. -/
def looseRecord : Record :=
  ⟨"n", "test", some "t", some [["a"], ["b", "c"], []], true, [("env", .null), ("x", .nat 1)]⟩

/-- The tab around it, and a config node that names neither a container nor wires. -/
def looseRecords : List Json := [
  .obj [("id", .str "t"), ("label", .null), ("type", .str "tab")],
  .obj looseFields,
  .obj [("id", .str "c"), ("type", .str "settings"), ("wires", .null), ("z", .null)]]

/-- The record is written with the first name of each field and all ports as lists, and then read as it was. With it
and the config node, which loses its nulls, written anew nothing differs. -/
theorem loose_records_read_back : ∃ w d, Record.ofJson? (.obj looseFields) = some looseRecord ∧
    looseRecord.toJson = .obj w ∧ Record.Normal looseFields w ∧ w ≠ looseFields ∧
    Record.ofJson? looseRecord.toJson = some looseRecord ∧ parse looseRecords = .ok d ∧
    looseRecords.map rewritten ≠ looseRecords ∧ parse (looseRecords.map rewritten) = .ok d ∧
    Diff.between? d d = some ⟨[], [], [], [], []⟩ := by
  have hread : Record.ofJson? (.obj looseFields) = some looseRecord := by decide +kernel
  have hparse : parse looseRecords = .ok (ofRecords looseRecords) := parse_of_isOk (by decide +kernel)
  have hsorted : ∀ v ∈ looseRecords, FieldsSorted v := by
    simp only [looseRecords, List.forall_mem_cons, List.not_mem_nil, false_implies, implies_true, and_true]
    refine ⟨?_, ?_, ?_⟩ <;> rintro _ ⟨⟩ <;> unfold Dict.Sorted <;> decide +kernel
  have hfields : Dict.Sorted looseFields := hsorted (.obj looseFields) (by simp [looseRecords]) _ rfl
  obtain ⟨w, hw, hnormal, hagain⟩ := records_read_back.1 looseFields looseRecord hfields hread
  obtain ⟨hsame, hdiff⟩ := records_read_back.2 looseRecords _ hsorted hparse
  refine ⟨w, _, hread, hw, hnormal, ?_, hagain, hparse, by decide +kernel, hsame, hdiff⟩
  rintro rfl
  cases hnormal.aliases.2

end Deployment
end Flowgraph
