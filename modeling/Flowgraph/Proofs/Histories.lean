import Flowgraph.Proofs.Environments
import Flowgraph.Proofs.Holding
/-! Histories of deeds. Whatever is done while the agenda is not empty was put there by one earlier deed, and all that an
action leads to is done before what lies below it. -/
namespace Flowgraph.Engine

/-- The first steps of an engine with the standard kinds of nodes, from a moment at which no task is pending. -/
structure History (state : Nat → Engine) (deed : Nat → Deed) (n : Nat) : Prop where
  reachable : Reachable (state 0)
  standard : (state 0).registry = Registry.standard
  idle : (state 0).agenda = []
  free : (state 0).tasks = []
  does : ∀ i < n, Does (state i) (deed i) (state (i + 1))

variable {state : Nat → Engine} {deed : Nat → Deed} {n i j l : Nat} {a : Action} {k : NodeKey} {m : Message}
  {above below agenda : List Action} {p : Pending}

/-- No message keeps a level. -/
theorem hasInstall_eq_false {e : Engine} (hm : ∀ b ∈ e.agenda, b.plans = false) (x : LevelKey) : e.hasInstall x = false := by
  refine List.any_eq_false.mpr fun b hb => ?_
  have hb := hm b hb
  cases b with
  | install => cases hb
  | _ => exact Bool.false_ne_true

namespace History

variable (h : History state deed n)
include h

theorem take (hj : j ≤ n) : History state deed j :=
  ⟨h.reachable, h.standard, h.idle, h.free, fun i hi => h.does i (Nat.lt_of_lt_of_le hi hj)⟩

/-- What each deed preserves holds all along. -/
theorem invariant {P : Engine → Prop} (h0 : P (state 0))
    (step : ∀ i < n, Reachable (state i) → P (state i) → P (state (i + 1))) : ∀ i ≤ n, Reachable (state i) ∧ P (state i) := by
  intro i hi
  induction i with
  | zero => exact ⟨h.reachable, h0⟩
  | succ i ih =>
    obtain ⟨hr, hp⟩ := ih (Nat.le_of_succ_le hi)
    exact ⟨(h.does i hi).reachable hr, step i hi hr hp⟩

theorem reachable_at (hi : i ≤ n) : Reachable (state i) :=
  (h.invariant (P := fun _ => True) trivial (fun _ _ _ _ => trivial) i hi).1

theorem registry_at (hi : i ≤ n) : (state i).registry = Registry.standard :=
  (h.invariant (P := fun e => e.registry = Registry.standard) h.standard
    (fun i hi _ hk => (registry_of_grows (h.does i hi).grows).trans hk) i hi).2

theorem stocked (hi : i ≤ n) : Stocked (state i) := (h.reachable_at hi).stocked (h.registry_at hi)

theorem unmixed (hi : i ≤ n) : Unmixed (state i) := by
  have h0 : Unmixed (state 0) := .inl (by simp [h.idle])
  refine (h.invariant (P := Unmixed) h0 (fun i hi _ hu => ?_) i hi).2
  refine (h.does i hi).unmixed ?_ hu
  rw [h.registry_at (Nat.le_of_lt hi)]
  exact Registry.idle_standard

theorem keyed (hi : i ≤ n) : Keyed (state i) := by
  have h0 : Keyed (state 0) := ⟨by simp [h.free], by simp [h.free]⟩
  exact (h.invariant (P := Keyed) h0
    (fun i hi _ hk => ((h.does i hi).inherits (h.stocked (Nat.le_of_lt hi))).keyed hk) i hi).2

theorem nextTask_le (hij : i ≤ j) (hj : j ≤ n) : (state i).nextTask ≤ (state j).nextTask := by
  induction j, hij using Nat.le_induction with
  | base => exact Nat.le_refl _
  | succ j hij ih =>
    exact Nat.le_trans (ih (Nat.le_of_succ_le hj)) ((h.does j hj).inherits (h.stocked (Nat.le_of_succ_le hj))).next

theorem grows (hij : i ≤ j) (hj : j ≤ n) : Grows (state i) (state j) := by
  induction j, hij using Nat.le_induction with
  | base => exact .refl _
  | succ j hij ih => exact (ih (Nat.le_of_succ_le hj)).trans (h.does j hj).grows

theorem told (hij : i ≤ j) (hj : j ≤ n) (ht : Told (state i) k) : Told (state j) k := by
  induction j, hij using Nat.le_induction with
  | base => exact ht
  | succ j hij ih => exact (h.does j hj).told (ih (Nat.le_of_succ_le hj))

/-- What is on the agenda is done, and replaced by what it leads to. -/
theorem act_at (hi : i < n) (ha : (state i).agenda = a :: agenda) (hm : a.plans = false) :
    deed i = .act a ∧ state (i + 1) = Engine.act { state i with agenda } a ∧
      ∃ pushed, (state (i + 1)).agenda = pushed ++ agenda ∧ Pushes { state i with agenda } a pushed := by
  obtain ⟨hd, he⟩ := (h.does i hi).of_agenda ha
  obtain ⟨pushed, hpush, hp⟩ := pushes_act { state i with agenda } hm
  exact ⟨hd, he, pushed, by rw [he]; exact hpush, hp⟩

/-- Where there are messages on the agenda after a deed, the deed has left what lay below. -/
theorem brought_at (hi : i < n) (ha : a ∈ (state (i + 1)).agenda) (hm : a.plans = false) :
    (∀ b ∈ (state i).agenda, b.plans = false) ∧
      ∃ pushed, (state (i + 1)).agenda = pushed ++ (state i).agenda.tail ∧ Brought (state i) (deed i) pushed := by
  have hall : ∀ b ∈ (state i).agenda, b.plans = false := by
    by_contra hno
    have hne : (state i).agenda ≠ [] := fun hnone => hno (by simp [hnone])
    have hidle : (state i).registry.Idle := h.registry_at (Nat.le_of_lt hi) ▸ Registry.idle_standard
    have hp := (h.does i hi).plots hidle hne ((h.unmixed (Nat.le_of_lt hi)).resolve_right hno) a ha
    rw [hm] at hp
    cases hp
  exact ⟨hall, (h.does i hi).brought hall⟩

/-! ## While messages are dealt with -/

/-- As long as messages are dealt with, levels and nodes stay as they are. -/
theorem still_while (hij : i ≤ j) (hj : j ≤ n) (hm : ∀ b ∈ (state i).agenda, b.plans = false)
    (hbusy : ∀ l, i ≤ l → l < j → (state l).agenda ≠ []) :
    (state j).still = (state i).still ∧ ∀ b ∈ (state j).agenda, b.plans = false := by
  induction j, hij using Nat.le_induction with
  | base => exact ⟨rfl, hm⟩
  | succ j hij ih =>
    obtain ⟨hstill, hm'⟩ := ih (Nat.le_of_succ_le hj) fun l hl hlj => hbusy l hl (Nat.lt_succ_of_lt hlj)
    obtain ⟨a, agenda, ha⟩ := List.exists_cons_of_ne_nil (hbusy j hij (Nat.lt_succ_self j))
    have ham : a.plans = false := hm' a (by simp [ha])
    obtain ⟨-, he, pushed, hpush, hp⟩ := h.act_at hj ha ham
    refine ⟨?_, fun b hb => ?_⟩
    · rw [he]
      exact (quiet_act { state j with agenda } (Action.isQuiet_of_plans ham)).still.trans hstill
    · rw [hpush] at hb
      exact (List.mem_append.mp hb).elim (hp.plans b) fun hb => hm' b (by simp [ha, hb])

theorem hasLevel_while (hij : i ≤ j) (hj : j ≤ n) (hm : ∀ b ∈ (state i).agenda, b.plans = false)
    (hbusy : ∀ l, i ≤ l → l < j → (state l).agenda ≠ []) (x : LevelKey) :
    (state j).hasLevel x = (state i).hasLevel x := by
  obtain ⟨hstill, hm'⟩ := h.still_while hij hj hm hbusy
  exact (Upholds.of_still hstill fun y => by rw [hasInstall_eq_false hm, hasInstall_eq_false hm']).hasLevel x

/-- The levels that there are before a message is dealt with are there while it is. -/
theorem upholds_pop (hi : i ≤ n) (ha : (state i).agenda = a :: agenda) (hm : a.plans = false) :
    Upholds (state i) { state i with agenda } := by
  have hall := (h.unmixed hi).of_message (ha ▸ List.mem_cons_self) hm
  refine .of_still rfl fun x => ?_
  rw [hasInstall_eq_false hall, hasInstall_eq_false fun b hb => hall b (ha ▸ List.mem_cons_of_mem a hb)]

/-! ## What becomes of an action -/

/-- What is on the agenda is done when its time has come, and until then it stays with what lies below it. -/
theorem reaches (hi : i ≤ n) (ha : (state i).agenda = above ++ a :: below) (hm : a.plans = false) :
    (∃ j, i ≤ j ∧ j ≤ n ∧ (state j).agenda = a :: below ∧
      ∀ l, i ≤ l → l < j → (a :: below).length < (state l).agenda.length) ∨
    ∃ above, above ≠ [] ∧ (state n).agenda = above ++ a :: below ∧
      ∀ l, i ≤ l → l ≤ n → (a :: below).length < (state l).agenda.length := by
  induction hd : n - i generalizing i above with
  | zero =>
    obtain rfl : i = n := by omega
    cases habove : above with
    | nil => exact .inl ⟨i, Nat.le_refl i, Nat.le_refl i, by rw [ha, habove]; rfl, fun l hl hl' => by omega⟩
    | cons b above =>
      refine .inr ⟨_, List.cons_ne_nil b above, by rw [ha, habove], fun l hl hl' => ?_⟩
      obtain rfl : l = i := by omega
      rw [ha, habove]
      simp only [List.length_append, List.length_cons]
      omega
  | succ d ih =>
    cases habove : above with
    | nil => exact .inl ⟨i, Nat.le_refl i, hi, by rw [ha, habove]; rfl, fun l hl hl' => by omega⟩
    | cons b above =>
      rw [habove, List.cons_append] at ha
      have hb : b.plans = false := (h.unmixed hi).of_message (a := a) (by simp [ha]) hm b (by simp [ha])
      obtain ⟨-, -, pushed, hpush, -⟩ := h.act_at (by omega) ha hb
      rw [← List.append_assoc] at hpush
      have hfirst : (a :: below).length < (state i).agenda.length := by
        rw [ha]
        simp only [List.length_append, List.length_cons]
        omega
      rcases ih (i := i + 1) (by omega) hpush (by omega) with
        ⟨j, hij, hj, hagenda, hbetween⟩ | ⟨above, hne, hagenda, hbetween⟩
      · exact .inl ⟨j, by omega, hj, hagenda, fun l hl hlj =>
          (Nat.eq_or_lt_of_le hl).elim (fun h => h ▸ hfirst) fun hl => hbetween l hl hlj⟩
      · exact .inr ⟨above, hne, hagenda, fun l hl hln =>
          (Nat.eq_or_lt_of_le hl).elim (fun h => h ▸ hfirst) fun hl => hbetween l hl hln⟩

end History

/-! ## Where an action comes from -/

/-- The deed at i has put on the agenda what is done at j. -/
structure Spawns (state : Nat → Engine) (i j : Nat) : Prop where
  before : i < j
  busy : (state j).agenda ≠ []
  /-- It lies no deeper than what was done then. -/
  above : (state i).agenda.length ≤ (state j).agenda.length
  /-- All that was done between lay above it. -/
  between : ∀ l, i < l → l < j → (state j).agenda.length < (state l).agenda.length

theorem Spawns.unique (h : Spawns state i j) (h' : Spawns state l j) : i = l := by
  rcases Nat.lt_trichotomy i l with hlt | heq | hlt
  · exact absurd (h.between l hlt h'.before) (Nat.not_lt.mpr h'.above)
  · exact heq
  · exact absurd (h'.between i hlt h.before) (Nat.not_lt.mpr h.above)

/-- Two actions that one deed has put on the agenda lie at different depths. -/
theorem Spawns.eq_of_length (h : Spawns state i j) (h' : Spawns state i l)
    (hlen : (state j).agenda.length = (state l).agenda.length) : j = l := by
  rcases Nat.lt_trichotomy j l with hlt | heq | hlt
  · exact absurd (h'.between j h.before hlt) (by omega)
  · exact heq
  · exact absurd (h.between l h'.before hlt) (by omega)

namespace History

variable (h : History state deed n)
include h

/-- Every action has been put on the agenda by one deed. -/
theorem exists_spawns (ha : (state j).agenda ≠ []) : ∃ i, Spawns state i j := by
  -- the last step before at which the agenda was no longer
  have hj : j ≠ 0 := fun h0 => ha (h0 ▸ h.idle)
  have hex : ∃ i, i < j ∧ (state i).agenda.length ≤ (state j).agenda.length :=
    ⟨0, by omega, by rw [h.idle]; exact Nat.zero_le _⟩
  obtain ⟨i, hi, hmax⟩ : ∃ i, (i < j ∧ (state i).agenda.length ≤ (state j).agenda.length) ∧
      ∀ l, i < l → ¬(l < j ∧ (state l).agenda.length ≤ (state j).agenda.length) := by
    refine ⟨Nat.findGreatest (fun i => i < j ∧ (state i).agenda.length ≤ (state j).agenda.length) j, ?_, ?_⟩
    · obtain ⟨i, hi⟩ := hex
      exact Nat.findGreatest_spec (P := fun i => i < j ∧ (state i).agenda.length ≤ (state j).agenda.length)
        (Nat.le_of_lt hi.1) hi
    · intro l hl hlj
      exact Nat.findGreatest_is_greatest hl (Nat.le_of_lt hlj.1) hlj
  exact ⟨i, hi.1, ha, hi.2, fun l hil hlj => Nat.lt_of_not_le fun hle => hmax l hil ⟨hlj, hle⟩⟩

/-- What is done at j is one of the actions that the deed has put on the agenda, and what lay below then lies below now. -/
theorem spawns (hj : j ≤ n) (hb : Spawns state i j) (hm : ∀ b ∈ (state j).agenda, b.plans = false) :
    (∀ b ∈ (state i).agenda, b.plans = false) ∧
      ∃ before a after, Brought (state i) (deed i) (before ++ a :: after) ∧
        (state (i + 1)).agenda = before ++ a :: after ++ (state i).agenda.tail ∧
        (state j).agenda = a :: after ++ (state i).agenda.tail := by
  have hij := hb.before
  -- the agenda at j lies on the bottom of the agenda at every step between
  have hsuffix : ∀ l, i < l → l ≤ j → (state j).agenda <:+ (state l).agenda := by
    intro l hil hlj
    induction hd : j - l generalizing l with
    | zero =>
      obtain rfl : l = j := by omega
      exact List.suffix_refl _
    | succ d ih =>
      have hs := ih (l + 1) (by omega) (by omega) (by omega)
      obtain ⟨b, hbm⟩ := List.exists_mem_of_ne_nil _ hb.busy
      obtain ⟨-, pushed, hpush, -⟩ := h.brought_at (i := l) (by omega) (hs.subset hbm) (hm b hbm)
      have hlen := hb.between l hil (by omega)
      have htail : (state j).agenda.length ≤ (state l).agenda.tail.length := by
        rw [List.length_tail]
        omega
      have hst : (state l).agenda.tail <:+ (state (l + 1)).agenda := ⟨pushed, hpush.symm⟩
      exact (List.suffix_of_suffix_length_le hs hst htail).trans (List.tail_suffix _)
  have hs := hsuffix (i + 1) (by omega) (by omega)
  obtain ⟨b, hbm⟩ := List.exists_mem_of_ne_nil _ hb.busy
  obtain ⟨hall, pushed, hpush, hbrought⟩ := h.brought_at (i := i) (by omega) (hs.subset hbm) (hm b hbm)
  have htail : (state i).agenda.tail.length < (state j).agenda.length := by
    have hpos := List.length_pos_of_ne_nil hb.busy
    have habove := hb.above
    rw [List.length_tail]
    omega
  have hst : (state i).agenda.tail <:+ (state (i + 1)).agenda := ⟨pushed, hpush.symm⟩
  obtain ⟨pre, hpre⟩ := List.suffix_of_suffix_length_le hst hs (Nat.le_of_lt htail)
  obtain ⟨before, hbefore⟩ := hs
  cases pre with
  | nil =>
    rw [← hpre] at htail
    exact absurd htail (Nat.lt_irrefl _)
  | cons a after =>
    have hpushed : pushed = before ++ a :: after := by
      rw [hpush, ← hpre, ← List.append_assoc] at hbefore
      exact (List.append_cancel_right hbefore).symm
    exact ⟨hall, before, a, after, hpushed ▸ hbrought, by rw [hpush, hpushed], hpre.symm⟩

end History

end Flowgraph.Engine
