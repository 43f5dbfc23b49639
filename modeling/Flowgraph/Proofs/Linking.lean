import Mathlib.Data.List.Sort
import Mathlib.Logic.Relation
import Flowgraph.Proofs.Comparison
/-! The linked ids of a difference: what the wires of the two generations join to something modified. They are found
by a search that takes up each id once, so it ends on wires that run in circles too. -/
namespace Flowgraph

namespace TextSet

theorem mem_ofList {ts : List String} {t : String} : t ∈ ofList ts ↔ t ∈ ts := by
  have hfold (ts : List String) (set : TextSet) : t ∈ ts.foldl insert set ↔ t ∈ set ∨ t ∈ ts := by
    induction ts generalizing set with
    | nil => simp
    | cons s ts ih => rw [List.foldl_cons, ih, mem_insert_iff, or_assoc, List.mem_cons]
  simpa [ofList] using hfold ts []

theorem sorted_ofList (ts : List String) : (ofList ts).Pairwise (· < ·) := by
  have hfold (ts : List String) (set : TextSet) (h : set.Pairwise (· < ·)) :
      (ts.foldl insert set).Pairwise (· < ·) := by
    induction ts generalizing set with
    | nil => exact h
    | cons s ts ih => exact ih _ (sorted_insert h s)
  exact hfold ts [] List.Pairwise.nil

end TextSet

namespace Diff

open Relation

variable {next : String → List String} {fuel : Nat} {seen pending known : List String} {x y : String}

/-! ## Searching -/

/-- What a text leads to that has not been seen, each once. -/
def fresh (next : String → List String) (seen : List String) (x : String) : List String :=
  ((next x).filter fun y => !seen.contains y).eraseDups

theorem mem_fresh : y ∈ fresh next seen x ↔ y ∈ next x ∧ y ∉ seen := by
  simp [fresh, List.mem_eraseDups]

theorem nodup_fresh : (fresh next seen x).Nodup := nodup_eraseDups _

/-- What a search takes up, in order: each pending text in its turn, but before the others those that it newly leads
to. -/
def searched (next : String → List String) : (fuel : Nat) → (seen pending : List String) → List String
  | 0, _, _ => []
  | _ + 1, _, [] => []
  | fuel + 1, seen, x :: pending =>
    x :: searched next fuel (fresh next seen x ++ seen) (fresh next seen x ++ pending)

/-- Whatever is taken up is led to by something pending. -/
theorem searched_sound (h : y ∈ searched next fuel seen pending) :
    ∃ x ∈ pending, ReflTransGen (fun a b => b ∈ next a) x y := by
  induction fuel generalizing seen pending with
  | zero => cases h
  | succ fuel ih =>
    cases pending with
    | nil => cases h
    | cons x pending =>
      rcases List.mem_cons.mp h with rfl | h
      · exact ⟨y, List.mem_cons_self, .refl⟩
      · obtain ⟨z, hz, hpath⟩ := ih h
        rcases List.mem_append.mp hz with hz | hz
        · exact ⟨x, List.mem_cons_self, .head (mem_fresh.mp hz).1 hpath⟩
        · exact ⟨z, List.mem_cons_of_mem _ hz, hpath⟩

section Finite
/-! With a step for each text that is pending and for each known one that has not been seen, a search takes up all
that it should. -/

variable (hnext : ∀ x, ∀ y ∈ next x, y ∈ known)
include hnext

theorem length_fresh (x : String) (pending : List String)
    (hfuel : (x :: pending).length + (unvisited known seen).length ≤ fuel + 1) :
    (fresh next seen x ++ pending).length + (unvisited known (fresh next seen x ++ seen)).length ≤ fuel := by
  have hfresh : ∀ y ∈ fresh next seen x, y ∈ unvisited known seen := fun y hy => by
    obtain ⟨hstep, hnew⟩ := mem_fresh.mp hy
    exact mem_unvisited.mpr ⟨hnext x y hstep, hnew⟩
  have hlen := length_unvisited nodup_fresh hfresh
  simp only [List.length_append, List.length_cons] at *
  omega

theorem mem_searched_of_pending (hfuel : pending.length + (unvisited known seen).length ≤ fuel) (hx : x ∈ pending) :
    x ∈ searched next fuel seen pending := by
  induction fuel generalizing seen pending with
  | zero =>
    obtain rfl : pending = [] := List.eq_nil_of_length_eq_zero (by omega)
    cases hx
  | succ fuel ih =>
    cases pending with
    | nil => cases hx
    | cons z pending =>
      rcases List.mem_cons.mp hx with rfl | hx
      · exact List.mem_cons_self
      · exact List.mem_cons_of_mem _ (ih (length_fresh hnext z pending hfuel) (List.mem_append_right _ hx))

/-- Where something taken up leads to has been seen before or is taken up too. -/
theorem searched_closed (hfuel : pending.length + (unvisited known seen).length ≤ fuel)
    (hx : x ∈ searched next fuel seen pending) (hy : y ∈ next x) : y ∈ seen ∨ y ∈ searched next fuel seen pending := by
  induction fuel generalizing seen pending with
  | zero => cases hx
  | succ fuel ih =>
    cases pending with
    | nil => cases hx
    | cons z pending =>
      have hrest := length_fresh hnext z pending hfuel
      have hcase (h : y ∈ fresh next seen z ++ seen) :
          y ∈ seen ∨ y ∈ searched next (fuel + 1) seen (z :: pending) := by
        rcases List.mem_append.mp h with h | h
        · exact .inr (List.mem_cons_of_mem _ (mem_searched_of_pending hnext hrest (List.mem_append_left _ h)))
        · exact .inl h
      rcases List.mem_cons.mp hx with rfl | hx
      · by_cases hs : y ∈ seen
        · exact .inl hs
        · exact hcase (List.mem_append_left _ (mem_fresh.mpr ⟨hy, hs⟩))
      · exact (ih hrest hx).elim hcase fun h => .inr (List.mem_cons_of_mem _ h)

/-- A search takes up exactly what its start leads to. -/
theorem mem_searched_iff {start : List String} (hfuel : start.length + (unvisited known start).length ≤ fuel) :
    y ∈ searched next fuel start start ↔ ∃ x ∈ start, ReflTransGen (fun a b => b ∈ next a) x y := by
  refine ⟨searched_sound, ?_⟩
  rintro ⟨x, hx, hpath⟩
  induction hpath with
  | refl => exact mem_searched_of_pending hnext hfuel hx
  | tail _ hstep ih =>
    exact (searched_closed hnext hfuel ih hstep).elim (mem_searched_of_pending hnext hfuel) id

end Finite

/-- A search that starts from known texts needs a step for each known one. -/
theorem length_start {start : List String} (hd : start.Nodup) (hs : ∀ x ∈ start, x ∈ known) :
    start.length + (unvisited known start).length ≤ known.length := by
  have hnew : ∀ x ∈ start, x ∈ unvisited known [] := fun x hx => mem_unvisited.mpr ⟨hs x hx, List.not_mem_nil⟩
  have hlen := length_unvisited hd hnew
  rw [List.append_nil] at hlen
  exact hlen.trans (List.length_filter_le _ _)

/-! ## Wires -/

variable {links : List (NodeId × NodeId)} {touched : List NodeId} {a b id : NodeId}

/-- Two ids are joined by a wire between them, whichever end it comes from. -/
def Joined (links : List (NodeId × NodeId)) (a b : NodeId) : Prop := (a, b) ∈ links ∨ (b, a) ∈ links

theorem mem_neighbours : b ∈ neighbours links a ↔ Joined links a b := by
  simp only [neighbours, Joined, List.mem_flatMap, List.mem_append, List.mem_ite_nil_right, List.mem_singleton]
  constructor
  · rintro ⟨⟨c, d⟩, hl, ⟨rfl, rfl⟩ | ⟨rfl, rfl⟩⟩
    · exact .inl hl
    · exact .inr hl
  · rintro (hl | hl)
    · exact ⟨_, hl, .inl ⟨rfl, rfl⟩⟩
    · exact ⟨_, hl, .inr ⟨rfl, rfl⟩⟩

theorem reach_cons (links : List (NodeId × NodeId)) (fuel : Nat) (seen : List NodeId) (x : NodeId)
    (pending : List NodeId) : reach links (fuel + 1) seen (x :: pending) =
      reach links fuel (fresh (neighbours links) seen x ++ seen) (fresh (neighbours links) seen x ++ pending) := rfl

/-- What is reached has been seen before, or is joined to something that the search takes up. -/
theorem mem_reach : id ∈ reach links fuel seen pending ↔
    id ∈ seen ∨ ∃ x ∈ searched (neighbours links) fuel seen pending, id ∈ neighbours links x := by
  induction fuel generalizing seen pending with
  | zero => simp [reach, searched]
  | succ fuel ih =>
    cases pending with
    | nil => simp [reach, searched]
    | cons x pending =>
      rw [reach_cons, searched, ih, List.mem_append, mem_fresh, List.exists_mem_cons_iff]
      tauto

/-- The ends of all wires. -/
def ends (links : List (NodeId × NodeId)) : List NodeId := links.flatMap fun l => [l.1, l.2]

theorem length_ends (links : List (NodeId × NodeId)) : (ends links).length = 2 * links.length := by
  induction links with
  | nil => rfl
  | cons l links ih =>
    rw [ends, List.flatMap_cons, List.length_append]
    change 2 + (ends links).length = 2 * (links.length + 1)
    omega

theorem mem_ends_of_joined (h : Joined links a b) : b ∈ ends links := by
  rcases h with h | h
  · exact List.mem_flatMap.mpr ⟨_, h, by simp⟩
  · exact List.mem_flatMap.mpr ⟨_, h, by simp⟩

/-- Linked is what is not touched itself, but joined to something touched through any number of wires. -/
theorem mem_linkedTo : id ∈ linkedTo links touched ↔
    id ∉ touched ∧ ∃ t ∈ touched, ReflTransGen (Joined links) t id := by
  have hnext : ∀ x, ∀ y ∈ neighbours links x, y ∈ ends links := fun x y hy => mem_ends_of_joined (mem_neighbours.mp hy)
  have hfuel : touched.length + (unvisited (ends links) touched).length ≤ touched.length + 2 * links.length + 1 := by
    have hlen : (unvisited (ends links) touched).length ≤ (ends links).length := List.length_filter_le _ _
    rw [length_ends] at hlen
    omega
  have hsearch (y : NodeId) := mem_searched_iff hnext (y := y) hfuel
  simp only [mem_neighbours] at hsearch
  rw [linkedTo, TextSet.mem_ofList, List.mem_filter, mem_reach, and_comm]
  refine and_congr (by simp) ⟨?_, ?_⟩
  · rintro (hid | ⟨x, hx, hjoined⟩)
    · exact ⟨id, hid, .refl⟩
    · obtain ⟨t, ht, hpath⟩ := (hsearch x).mp hx
      exact ⟨t, ht, hpath.tail (mem_neighbours.mp hjoined)⟩
  · rintro ⟨t, ht, hpath⟩
    rcases hpath.cases_tail with rfl | ⟨x, hpath, hjoined⟩
    · exact .inl ht
    · exact .inr ⟨x, (hsearch x).mpr ⟨t, ht, hpath⟩, mem_neighbours.mpr hjoined⟩

/-- The order of the wires does not matter. -/
theorem linkedTo_perm {links' : List (NodeId × NodeId)} (h : links.Perm links') (touched : List NodeId) :
    linkedTo links touched = linkedTo links' touched := by
  have hrel : Joined links = Joined links' := by
    funext a b
    exact propext (or_congr h.mem_iff h.mem_iff)
  refine (TextSet.sorted_ofList _).eq_of_mem_iff (TextSet.sorted_ofList _) fun id => ?_
  exact mem_linkedTo.trans (hrel ▸ mem_linkedTo.symm)

/-! ## The linked ids of a difference -/

variable {old new : Deployment} {diff : Diff}

/-- A node of one of the two generations declares a wire between these ids. -/
inductive Wired (old new : Deployment) : NodeId → NodeId → Prop
  | along {r : Record} {port : List NodeId} {target : NodeId} (hr : r ∈ old.nodes.values ∨ r ∈ new.nodes.values)
    (hp : port ∈ r.outputs) (ht : target ∈ port) : Wired old new r.id target
  | against {r : Record} {port : List NodeId} {target : NodeId} (hr : r ∈ old.nodes.values ∨ r ∈ new.nodes.values)
    (hp : port ∈ r.outputs) (ht : target ∈ port) : Wired old new target r.id

/-- The difference names the id for itself, and not only as linked. -/
def Modifies (diff : Diff) (id : NodeId) : Prop :=
  id ∈ diff.added ∨ id ∈ diff.changed ∨ id ∈ diff.removed ∨ id ∈ diff.rewired

instance (diff : Diff) (id : NodeId) : Decidable (diff.Modifies id) :=
  inferInstanceAs (Decidable (id ∈ diff.added ∨ id ∈ diff.changed ∨ id ∈ diff.removed ∨ id ∈ diff.rewired))

theorem mem_wiresOf {d : Deployment} : (a, b) ∈ wiresOf d ↔
    ∃ r ∈ d.nodes.values, r.id = a ∧ ∃ port ∈ r.outputs, b ∈ port := by
  simp only [wiresOf, List.mem_flatMap, List.mem_map, List.mem_flatten, Prod.mk.injEq]
  constructor
  · rintro ⟨r, hr, target, ⟨port, hp, ht⟩, rfl, rfl⟩
    exact ⟨r, hr, rfl, port, hp, ht⟩
  · rintro ⟨r, hr, rfl, port, hp, ht⟩
    exact ⟨r, hr, b, ⟨port, hp, ht⟩, rfl, rfl⟩

theorem joined_iff_wired : Joined (wiresOf old ++ wiresOf new) a b ↔ Wired old new a b := by
  simp only [Joined, List.mem_append, mem_wiresOf]
  constructor
  · rintro ((⟨r, hr, rfl, port, hp, ht⟩ | ⟨r, hr, rfl, port, hp, ht⟩) |
      ⟨r, hr, rfl, port, hp, ht⟩ | ⟨r, hr, rfl, port, hp, ht⟩)
    · exact .along (.inl hr) hp ht
    · exact .along (.inr hr) hp ht
    · exact .against (.inl hr) hp ht
    · exact .against (.inr hr) hp ht
  · rintro (⟨hr, hp, ht⟩ | ⟨hr, hp, ht⟩)
    · exact .inl (hr.imp (⟨_, ·, rfl, _, hp, ht⟩) (⟨_, ·, rfl, _, hp, ht⟩))
    · exact .inr (hr.imp (⟨_, ·, rfl, _, hp, ht⟩) (⟨_, ·, rfl, _, hp, ht⟩))

/-- An id is linked just when it is not modified itself and wires of either generation, taken in either direction, lead
to it from one that is. -/
theorem mem_linked_iff_wired (hd : between? old new = some diff) (id : NodeId) : id ∈ diff.linked ↔
    ¬diff.Modifies id ∧ ∃ t, diff.Modifies t ∧ TransGen (Wired old new) t id := by
  obtain ⟨m, -, rfl⟩ := Option.map_eq_some_iff.mp hd
  have hrel : Joined (wiresOf old ++ wiresOf new) = Wired old new := funext₂ fun _ _ => propext joined_iff_wired
  unfold finish
  dsimp only
  rw [mem_linkedTo, hrel]
  simp only [List.mem_eraseDups, List.mem_append, or_assoc]
  refine and_congr_right fun hid => exists_congr fun t => and_congr_right fun ht => ?_
  have hne : t ≠ id := fun he => hid (he ▸ ht)
  rw [reflTransGen_iff_eq_or_transGen, or_iff_right hne.symm]

/-- A node on a tab that leads to these targets. -/
def wiredNode (id : String) (targets : List String) (value : Nat) : Json :=
  .obj [("id", .str id), ("type", .str "test"), ("v", .nat value),
    ("wires", .arr [.arr (targets.map .str)]), ("z", .str "t")]

/-- A node that leads to `target`, one of some value that leads to itself and to a node whose wire dangles, and a node
apart. -/
def wiredRecords (target : String) (value : Nat) : List Json := [
  .obj [("id", .str "t"), ("type", .str "tab")],
  wiredNode "a" [target] 0, wiredNode "b" ["b", "c"] value, wiredNode "c" ["x"] 0, wiredNode "d" ["y"] 0]

/-- When the first node is wired elsewhere and the value of the second changes, all that these two lead to is linked,
by wires that are no more, over several wires and where they dangle. No way leads to the node apart. -/
theorem linked_of_wiredRecords : ∃ old new diff, Deployment.parse (wiredRecords "o" 1) = .ok old ∧
    Deployment.parse (wiredRecords "b" 2) = .ok new ∧ between? old new = some diff ∧ diff.Modifies "a" ∧
    diff.Modifies "b" ∧ Wired old new "a" "o" ∧ "o" ∈ diff.linked ∧ TransGen (Wired old new) "b" "x" ∧
    "x" ∈ diff.linked ∧ "d" ∉ diff.linked ∧ ¬TransGen (Wired old new) "b" "d" := by
  have hold : Deployment.parse (wiredRecords "o" 1) = .ok (Deployment.ofRecords (wiredRecords "o" 1)) :=
    Deployment.parse_of_isOk (by decide +kernel)
  have hnew : Deployment.parse (wiredRecords "b" 2) = .ok (Deployment.ofRecords (wiredRecords "b" 2)) :=
    Deployment.parse_of_isOk (by decide +kernel)
  have hsome : between? (Deployment.ofRecords (wiredRecords "o" 1)) (Deployment.ofRecords (wiredRecords "b" 2)) =
      some ⟨[], ["b", "t"], [], ["a"], ["c", "o", "x"]⟩ := by decide +kernel
  have hlinked := mem_linked_iff_wired hsome
  have hgone : Wired (Deployment.ofRecords (wiredRecords "o" 1)) (Deployment.ofRecords (wiredRecords "b" 2)) "a" "o" :=
    .along (r := ⟨"a", "test", some "t", some [["o"]], false, [("v", .nat 0)]⟩)
      (.inl (by decide +kernel)) (List.mem_singleton_self ["o"]) (by decide)
  have hnext : Wired (Deployment.ofRecords (wiredRecords "o" 1)) (Deployment.ofRecords (wiredRecords "b" 2)) "b" "c" :=
    .along (r := ⟨"b", "test", some "t", some [["b", "c"]], false, [("v", .nat 2)]⟩)
      (.inr (by decide +kernel)) (List.mem_singleton_self ["b", "c"]) (by decide)
  have hlast : Wired (Deployment.ofRecords (wiredRecords "o" 1)) (Deployment.ofRecords (wiredRecords "b" 2)) "c" "x" :=
    .along (r := ⟨"c", "test", some "t", some [["x"]], false, [("v", .nat 0)]⟩)
      (.inr (by decide +kernel)) (List.mem_singleton_self ["x"]) (by decide)
  have hpath := TransGen.tail (.single hnext) hlast
  exact ⟨_, _, _, hold, hnew, hsome, by decide, by decide, hgone,
    (hlinked "o").mpr ⟨by decide, "a", by decide, .single hgone⟩, hpath,
    (hlinked "x").mpr ⟨by decide, "b", by decide, hpath⟩, by decide,
    fun h => absurd ((hlinked "d").mpr ⟨by decide, "b", by decide, h⟩) (by decide)⟩

end Diff
end Flowgraph
