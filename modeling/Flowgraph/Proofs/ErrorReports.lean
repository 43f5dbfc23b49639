import Flowgraph.Proofs.Passing
import Flowgraph.Proofs.Tables
/-! What receivers are told of errors. The message of an error is that which caused it, with a descriptor of the error
beside the other properties; an error that has come back too often is told to nobody. -/
namespace Flowgraph

theorem Message.get?_insert (m : Message) (key other : String) (v : Json) :
    (m.insert key v).get? other = if key = other then some v else m.get? other :=
  Dict.get?_insert m.body key other v

theorem Message.get?_erase (m : Message) (key other : String) :
    (m.erase key).get? other = if key = other then none else m.get? other :=
  Dict.get?_erase m.body key other

theorem Json.field?_record {fields : List (String × Json)} (h : (fields.map (·.1)).Nodup) (name : String) :
    (Json.record fields).field? name = (fields.find? (·.1 == name)).map (·.2) :=
  Dict.get?_ofList h name

/-! ## The message of an error -/

/-- Where an error comes from: the node that raised it, and the position of the error in a chain. -/
def errorSource (origin : Origin) (position : Nat) : Json :=
  Json.record (origin.fields ++ [("count", .nat position)])

/-- What is said of an error: its text, and where it comes from. -/
def errorDescriptor (origin : Origin) (text : String) (position : Nat) : Json :=
  Json.record [("message", .str text), ("source", errorSource origin position)]

/-- A message that tells of an error about another: it has the descriptor, keeps the one that was there before aside, and
is the other message in all else. -/
structure Recounts (origin : Origin) (text : String) (position : Nat) (m out : Message) : Prop where
  error : out.get? "error" = some (errorDescriptor origin text position)
  aside : out.get? "_error" = (m.get? "error").or (m.get? "_error")
  others : ∀ key, key ≠ "error" → key ≠ "_error" → out.get? key = m.get? key

/-- A message carries an error of a node, with a position. -/
def Message.Carries (m : Message) (id : NodeId) (position : Nat) : Prop :=
  ∃ source, m.errorSource? = some source ∧ source.field? "id" = some (.str id) ∧
    source.field? "count" = some (.nat position)

section Report
variable {m out : Message} {origin : Origin} {text : String} {position : Nat}

theorem recounts_errorMessage (fresh : String) (origin : Origin) (text : String) (m : Message) (count : UInt64) :
    Recounts origin text count.toNat m (errorMessage fresh origin text (some m) count) := by
  unfold errorMessage
  dsimp only [Option.getD_some]
  cases he : m.get? "error" with
  | none =>
    refine ⟨?_, ?_, fun key hkey _ => ?_⟩
    · rw [Message.get?_insert, if_pos rfl]
      rfl
    · rw [Message.get?_insert, if_neg (by decide), he, Option.none_or]
    · rw [Message.get?_insert, if_neg (Ne.symm hkey)]
  | some previous =>
    refine ⟨?_, ?_, fun key hkey hkey' => ?_⟩
    · rw [Message.get?_insert, if_pos rfl]
      rfl
    · rw [Message.get?_insert, if_neg (by decide), Message.get?_insert, if_pos rfl, he, Option.some_or]
    · rw [Message.get?_insert, if_neg (Ne.symm hkey), Message.get?_insert, if_neg (Ne.symm hkey'), Message.get?_erase,
        if_neg (Ne.symm hkey)]

theorem field?_errorSource (origin : Origin) (position : Nat) :
    (errorSource origin position).field? "id" = some (.str origin.id) ∧
      (errorSource origin position).field? "count" = some (.nat position) := by
  have hkeys : ((origin.fields ++ [("count", Json.nat position)]).map (·.1)).Nodup := by
    change ["id", "type", "name", "count"].Nodup
    decide
  constructor
  · rw [errorSource, Json.field?_record hkeys]
    rfl
  · rw [errorSource, Json.field?_record hkeys]
    rfl

theorem Message.carries_of_error (h : m.get? "error" = some (errorDescriptor origin text position)) :
    m.Carries origin.id position := by
  have hkeys : ([("message", .str text), ("source", errorSource origin position)].map (·.1) : List String).Nodup := by
    change ["message", "source"].Nodup
    decide
  refine ⟨errorSource origin position, ?_, field?_errorSource origin position⟩
  rw [Message.errorSource?, h, Option.bind_some, errorDescriptor, Json.field?_record hkeys]
  rfl

/-- Whoever tells of an error carries it. -/
theorem Recounts.carries (h : Recounts origin text position m out) : out.Carries origin.id position :=
  Message.carries_of_error h.error

/-! ## Positions in a chain -/

theorem errorCount_of_fresh (h : m.get? "error" = none) : errorCount origin (some m) = 1 := by
  rw [errorCount, Option.bind_some, Message.errorSource?, h]
  rfl

/-- The position of an error about a message that carries one: the next, in words of 64 bits, if both are of one node. -/
theorem Message.Carries.errorCount_eq {id : NodeId} (h : m.Carries id position) :
    errorCount origin (some m) = if id = origin.id then UInt64.ofNat position + 1 else 1 := by
  obtain ⟨source, hs, hid, hc⟩ := h
  have hn : (Json.nat position).asNat? = some position := by
    simp [Json.nat, Json.asNat?, Number.unsigned?]
  rw [errorCount, Option.bind_some, hs]
  dsimp only
  rw [hid, hc, Option.bind_some, Option.bind_some, hn]
  by_cases h : id = origin.id
  · simp [h, Json.asStr?]
  · simp [h, Json.asStr?]

/-- The same in numbers. -/
theorem Message.Carries.toNat_errorCount {id : NodeId} (h : m.Carries id position) :
    (errorCount origin (some m)).toNat = if id = origin.id then (position + 1) % 2 ^ 64 else 1 := by
  rw [h.errorCount_eq]
  split
  · simp
  · rfl

end Report

/-! ## Errors that are raised -/

/-- An error as a node raises it. -/
structure RaisedError where
  origin : Origin
  text : String

def RaisedError.signal (r : RaisedError) (m : Message) : Signal := .error r.text (some m)

/-- An error is counted and described; what came before is kept aside. -/
theorem recounts_signalMessage (fresh : String) (r : RaisedError) (m : Message) :
    Recounts r.origin r.text (errorCount r.origin (some m)).toNat m (Engine.signalMessage fresh r.origin (r.signal m)) :=
  recounts_errorMessage fresh r.origin r.text m _

namespace Engine

variable {e : Engine} {j : LevelKey} {r : RaisedError} {m : Message}

theorem loops_error_iff {origin : Origin} {text : String} {about : Option Message} :
    loops origin (.error text about) = true ↔ errorLimit.toNat ≤ (errorCount origin about).toNat := by
  rw [loops, decide_eq_true_eq, UInt64.le_iff_toNat_le]

/-- All receivers of an error are handed the same. -/
theorem signalMessages_error (fresh : String) (e : Engine) (level : LevelKey) (r : RaisedError) (m : Message)
    (receivers : List NodeId) : e.signalMessages level r.origin (r.signal m) receivers =
      receivers.map fun id => .handAt level id (signalMessage fresh r.origin (r.signal m)) := by
  have hzip := congrArg (List.map fun id => Action.handAt level id (signalMessage fresh r.origin (r.signal m)))
    (List.zipIdx_map_fst 0 receivers)
  rw [List.map_map] at hzip
  exact hzip

/-- A level has receivers for the signal. -/
def IsTaken (e : Engine) (j : LevelKey) (origin : Origin) (signal : Signal) : Prop :=
  ∃ level receivers, e.route j origin signal = .taken level receivers

theorem isTaken_of_raise {origin : Origin} {signal : Signal} (h : (e.raise j origin signal).2 = true) :
    loops origin signal = false ∧ e.IsTaken j origin signal := by
  unfold raise at h
  split at h
  · cases h
  · rename_i hl
    refine ⟨by simpa using hl, ?_⟩
    split at h
    · exact ⟨_, _, ‹_›⟩
    all_goals cases h

/-- Nobody is handed anything of an error that is raised, and the answer says so. -/
def Ignores (e : Engine) (j : LevelKey) (r : RaisedError) (m : Message) : Prop :=
  (e.raise j r.origin (r.signal m)).2 = false ∧ (e.raise j r.origin (r.signal m)).1.agenda = e.agenda

/-- Whoever is handed something of an error that is raised is told of it with a count. -/
def Tells (e : Engine) (j : LevelKey) (r : RaisedError) (m : Message) (count : Nat) : Prop :=
  ∃ told, (e.raise j r.origin (r.signal m)).1.agenda = told ++ e.agenda ∧ ∀ a ∈ told,
    ∃ level id out, a = .handAt level id out ∧ Recounts r.origin r.text count m out

theorem ignores_of_loops (h : loops r.origin (r.signal m) = true) : e.Ignores j r m := by
  unfold Ignores raise
  rw [h]
  exact ⟨rfl, rfl⟩

theorem ignores_of_not_isTaken (h : ¬e.IsTaken j r.origin (r.signal m)) : e.Ignores j r m := by
  unfold Ignores raise
  split
  · exact ⟨rfl, rfl⟩
  · split
    · rename_i hr
      exact absurd ⟨_, _, hr⟩ h
    · exact ⟨rfl, agenda_leave e _ _⟩
    · exact ⟨rfl, rfl⟩
    · exact ⟨rfl, rfl⟩

theorem Ignores.tells (h : e.Ignores j r m) (count : Nat) : e.Tells j r m count := ⟨[], h.2, List.forall_mem_nil _⟩

/-- The count that receivers are told is a word. -/
theorem tells_errorCount (e : Engine) (j : LevelKey) (r : RaisedError) (m : Message) :
    e.Tells j r m (errorCount r.origin (some m)).toNat := by
  by_cases ht : (e.raise j r.origin (r.signal m)).2 = true
  · obtain ⟨hg, level, receivers, hr⟩ := isTaken_of_raise ht
    refine ⟨e.signalMessages level r.origin (r.signal m) receivers, by rw [raise_of_taken hg hr]; rfl, fun a ha => ?_⟩
    rw [signalMessages_error ""] at ha
    obtain ⟨id, -, rfl⟩ := List.mem_map.mp ha
    exact ⟨level, id, _, rfl, recounts_signalMessage _ r m⟩
  · refine Ignores.tells ?_ _
    cases hg : loops r.origin (r.signal m) with
    | true => exact ignores_of_loops hg
    | false =>
      refine ignores_of_not_isTaken fun ⟨level, receivers, hr⟩ => ht ?_
      rw [raise_of_taken hg hr]

end Engine
end Flowgraph
