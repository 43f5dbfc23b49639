import Flowgraph.Level.Signal
import Mathlib.Data.List.Nodup
/-! Who takes an error: every receiver that hears it and waits for nobody, and the last resorts if there is no
such receiver. -/
namespace Flowgraph

variable {reporting : NodeId} {rs rest : List Receiver} {taken : List NodeId} {resorted : Bool}

namespace Receiver

/-- A receiver that waits for no other: it lacks the flag, or has a scope, beside which the flag says nothing. -/
def isOrdinary (r : Receiver) : Bool := !r.uncaught || r.scope.isSome

theorem isLastResort_eq (r : Receiver) : r.isLastResort = !r.isOrdinary := by
  cases r with
  | mk id scope uncaught => cases scope <;> cases uncaught <;> rfl

end Receiver

namespace Receivers

/-! ## The scan, tier by tier -/

/-- Ordinary receivers are taken one by one, whatever has been taken before. -/
theorem takeErrors_ordinary (h : ∀ r ∈ rs, r.isOrdinary) :
    takeErrors reporting taken resorted (rs ++ rest) =
      takeErrors reporting (taken ++ (rs.filter (·.hears reporting)).map (·.id)) resorted rest := by
  induction rs generalizing taken with
  | nil => simp
  | cons r rs ih =>
    have hr : r.isLastResort = false := by simp [Receiver.isLastResort_eq, h r]
    have hrs := fun r hr => h r (List.mem_cons_of_mem _ hr)
    cases hh : r.hears reporting <;> simp [takeErrors, hh, hr, ih hrs]

/-- Nobody resorts to a last resort once something has been taken. -/
theorem takeErrors_taken (h : ∀ r ∈ rs, r.isLastResort) (ht : taken ≠ []) :
    takeErrors reporting taken false rs = taken := by
  induction rs with
  | nil => rfl
  | cons r rs ih =>
    have hrs := ih fun r hr => h r (List.mem_cons_of_mem _ hr)
    simp [takeErrors, h r, ht, hrs]

/-- Behind the first last resort that is taken, the others are taken as well. -/
theorem takeErrors_resorted :
    takeErrors reporting taken true rs = taken ++ (rs.filter (·.hears reporting)).map (·.id) := by
  induction rs generalizing taken with
  | nil => simp [takeErrors]
  | cons r rs ih => cases hh : r.hears reporting <;> simp [takeErrors, hh, ih]

/-- Where nothing has been taken, every last resort that hears the error takes it. -/
theorem takeErrors_lastResort (h : ∀ r ∈ rs, r.isLastResort) :
    takeErrors reporting [] false rs = (rs.filter (·.hears reporting)).map (·.id) := by
  induction rs with
  | nil => rfl
  | cons r rs ih =>
    have hrs := ih fun r hr => h r (List.mem_cons_of_mem _ hr)
    cases hh : r.hears reporting <;> simp [takeErrors, hh, h r, hrs, takeErrors_resorted]

/-! ## The tiers -/

/-- The tiers before the last one hold the ordinary receivers. -/
theorem tiers_perm (rs : List Receiver) :
    ∃ first, first.Perm (rs.filter (·.isOrdinary)) ∧
      tiers rs = first ++ rs.filter Receiver.isLastResort := by
  refine ⟨rs.filter (·.scope.isSome) ++ rs.filter (fun r => r.scope.isNone && !r.uncaught), ?_, rfl⟩
  -- the ordinary receivers, parted by whether they have a scope
  have hparts := List.filter_append_perm (·.scope.isSome) (rs.filter (·.isOrdinary))
  simp only [List.filter_filter] at hparts
  refine List.Perm.trans (List.Perm.of_eq ?_) hparts
  congr 1 <;> refine List.filter_congr fun r _ => ?_ <;>
    cases hs : r.scope <;> cases hu : r.uncaught <;> simp [Receiver.isOrdinary, hs, hu]

/-! ## Who takes an error -/

/-- The receivers of errors among some records. -/
def catchersOf (records : List Record) : List Receiver :=
  (records.filter (·.type == catchType)).map Receiver.ofRecord

/-- Those that hear an error reported under an id. -/
def matching (records : List Record) (reporting : NodeId) : List Receiver :=
  (catchersOf records).filter (·.hears reporting)

/-- Which of the receivers that hear an error take it. Receivers are counted, since a list may hold one
more than once. -/
structure Selects (matching chosen : List Receiver) : Prop where
  /-- Nobody takes it who does not hear it. -/
  among : ∀ r ∈ chosen, r ∈ matching
  /-- An ordinary receiver takes it once for each of its places in the list. -/
  ordinary : ∀ r ∈ matching, r.isOrdinary → chosen.count r = matching.count r
  /-- A last resort takes it only if there is no ordinary receiver. -/
  last : ∀ r ∈ chosen, r.isLastResort → ∀ r' ∈ matching, r'.isLastResort
  /-- If there is no ordinary receiver, then every last resort takes it. -/
  resort : (∀ r ∈ matching, r.isLastResort) → ∀ r ∈ matching, chosen.count r = matching.count r

theorem Selects.ofPerm {matching chosen : List Receiver} (h : chosen.Perm matching)
    (hlast : ∀ r ∈ matching, r.isLastResort) : Selects matching chosen where
  among _ hr := h.mem_iff.mp hr
  ordinary r _ _ := h.count_eq r
  last _ _ _ := hlast
  resort _ r _ := h.count_eq r

theorem Selects.ofOrdinary {matching chosen : List Receiver} (h : chosen.Perm (matching.filter (·.isOrdinary)))
    (hsome : ∃ r ∈ matching, r.isOrdinary) : Selects matching chosen := by
  refine ⟨fun r hr => ?_, fun r _ ho => ?_, fun r hr hl => ?_, fun hall => ?_⟩
  · exact (List.mem_filter.mp (h.mem_iff.mp hr)).1
  · rw [h.count_eq r, List.count_filter ho]
  · have ho := (List.mem_filter.mp (h.mem_iff.mp hr)).2
    simp [Receiver.isLastResort_eq, ho] at hl
  · obtain ⟨r, hr, ho⟩ := hsome
    simpa [Receiver.isLastResort_eq, ho] using hall r hr

theorem matching_ids_sublist (records : List Record) (reporting : NodeId) :
    ((matching records reporting).map (·.id)).Sublist (records.map (·.id)) := by
  have hids : (catchersOf records).map (·.id) = (records.filter (·.type == catchType)).map (·.id) := by
    simp [catchersOf, Function.comp_def, Receiver.ofRecord]
  have hcatchers : ((catchersOf records).map (·.id)).Sublist (records.map (·.id)) := by
    rw [hids]
    exact List.filter_sublist.map _
  exact (List.filter_sublist.map _).trans hcatchers

/-- The scan of a table: the ordinary receivers that hear the error if there are any, and all that hear it
if there are none. -/
theorem catchTargets_cases (records : List Record) (reporting : NodeId) :
    ∃ chosen : List Receiver, (ofRecords records).catchTargets reporting = chosen.map (·.id) ∧
      (List.Perm chosen ((matching records reporting).filter (·.isOrdinary)) ∧
          (∃ r ∈ matching records reporting, r.isOrdinary) ∨
        chosen.Perm (matching records reporting) ∧ ∀ r ∈ matching records reporting, r.isLastResort) := by
  obtain ⟨first, hfirst, htiers⟩ := tiers_perm (catchersOf records)
  have hordinary : ∀ r ∈ first, r.isOrdinary := fun r hr => (List.mem_filter.mp (hfirst.mem_iff.mp hr)).2
  have hlast : ∀ r ∈ (catchersOf records).filter Receiver.isLastResort, r.isLastResort :=
    fun r hr => (List.mem_filter.mp hr).2
  have hheard : (first.filter (·.hears reporting)).Perm
      ((matching records reporting).filter (·.isOrdinary)) := by
    rw [matching, List.filter_comm]
    exact hfirst.filter _
  have hscan : (ofRecords records).catchTargets reporting =
      takeErrors reporting ((first.filter (·.hears reporting)).map (·.id)) false
        ((catchersOf records).filter Receiver.isLastResort) := by
    show takeErrors reporting [] false (tiers (catchersOf records)) = _
    rw [htiers, takeErrors_ordinary hordinary, List.nil_append]
  cases hf : first.filter (·.hears reporting) with
  | nil =>
    have hall : ∀ r ∈ matching records reporting, r.isLastResort := by
      rw [hf, List.nil_perm, List.filter_eq_nil_iff] at hheard
      simpa [Receiver.isLastResort_eq] using hheard
    refine ⟨matching records reporting, ?_, .inr ⟨.refl _, hall⟩⟩
    rw [hscan, hf, List.map_nil, takeErrors_lastResort hlast, List.filter_comm, ← matching,
      List.filter_eq_self.mpr hall]
  | cons r heard =>
    rw [hf] at hheard
    have hr := List.mem_filter.mp (hheard.mem_iff.mp List.mem_cons_self)
    refine ⟨r :: heard, ?_, .inl ⟨hheard, r, hr.1, hr.2⟩⟩
    rw [hscan, hf, takeErrors_taken hlast (by simp)]

/-- Last resorts wait: each ordinary receiver that hears an error takes it, once; a last resort takes it only
if no ordinary receiver hears it, and then every last resort that hears it does. A receiver with a scope is an
ordinary one, flagged or not. -/
theorem catchTargets_selects (records : List Record) (reporting : NodeId) :
    (∃ chosen : List Receiver, (ofRecords records).catchTargets reporting = chosen.map (·.id) ∧
        Selects (matching records reporting) chosen) ∧
      ((records.map (·.id)).Nodup → ((ofRecords records).catchTargets reporting).Nodup) := by
  have hsub := matching_ids_sublist records reporting
  obtain ⟨chosen, htargets, ⟨hperm, hsome⟩ | ⟨hperm, hlast⟩⟩ := catchTargets_cases records reporting
  · refine ⟨⟨chosen, htargets, .ofOrdinary hperm hsome⟩, fun hnd => ?_⟩
    rw [htargets, (hperm.map _).nodup_iff]
    exact hnd.sublist ((List.filter_sublist.map _).trans hsub)
  · refine ⟨⟨chosen, htargets, .ofPerm hperm hlast⟩, fun hnd => ?_⟩
    rw [htargets, (hperm.map _).nodup_iff]
    exact hnd.sublist hsub

/-- A flagged receiver with a scope that lists a node, and two others. -/
def scopedFlagged : List Record :=
  [⟨"u", catchType, .none, .none, false, [("scope", .arr [.str "a"]), ("uncaught", .bool true)]⟩,
    ⟨"all", catchType, .none, .none, false, []⟩,
    ⟨"rest", catchType, .none, .none, false, [("uncaught", .bool true)]⟩]

/-- The flag alone does not make a last resort: with a scope a flagged receiver takes an error beside one that
is not flagged, and keeps another flagged one from it. -/
theorem scoped_flagged_is_ordinary :
    ¬ (∀ r ∈ matching scopedFlagged "a", r.uncaught →
        r.id ∈ (ofRecords scopedFlagged).catchTargets "a" →
        ∀ r' ∈ matching scopedFlagged "a", r'.uncaught) ∧
      ¬ ((∀ r ∈ matching (scopedFlagged.eraseIdx 1) "a", r.uncaught) →
        ∀ r ∈ matching (scopedFlagged.eraseIdx 1) "a",
          r.id ∈ (ofRecords (scopedFlagged.eraseIdx 1)).catchTargets "a") := by
  decide

theorem catchTargets_selects_scopedFlagged :
    (scopedFlagged.map (·.id)).Nodup ∧ ((ofRecords scopedFlagged).catchTargets "a").Nodup :=
  ⟨by decide, (catchTargets_selects scopedFlagged "a").2 (by decide)⟩

end Receivers

end Flowgraph
