import Flowgraph.Proofs.ErrorReports
/-! Chains of errors, each about the message of the one before: their descriptors count the errors of one node that follow
each other, and every message keeps the descriptor before its own. -/
namespace Flowgraph

/-- The messages that receivers are handed of errors, each raised about the message of the one before. -/
def errorChain (fresh : String) : Message → List RaisedError → List Message
  | _, [] => []
  | m, r :: errors =>
    let out := Engine.signalMessage fresh r.origin (r.signal m)
    out :: errorChain fresh out errors

/-- How many errors of a node come right before a place of a chain. -/
def streak (errors : List RaisedError) (k : Nat) (id : NodeId) : Nat :=
  ((errors.take k).reverse.takeWhile (·.origin.id == id)).length

variable {fresh : String} {m before out : Message} {errors : List RaisedError} {r r' : RaisedError} {k : Nat}

theorem streak_zero (errors : List RaisedError) (id : NodeId) : streak errors 0 id = 0 := rfl

theorem streak_succ (h : errors[k]? = some r) (id : NodeId) :
    streak errors (k + 1) id = if r.origin.id = id then streak errors k id + 1 else 0 := by
  rw [streak, List.take_add_one, h, Option.toList_some, List.reverse_append, List.reverse_singleton,
    List.singleton_append, List.takeWhile_cons]
  by_cases hid : r.origin.id = id <;> simp [hid, streak]

theorem place_before (h : errors[k + 1]? = some r) : ∃ r', errors[k]? = some r' :=
  ⟨_, List.getElem?_eq_getElem (Nat.lt_of_succ_lt (List.getElem?_eq_some_iff.mp h).1)⟩

/-- Each message tells of its error about the one before it, the first about that with which the chain begins. -/
theorem errorChain_place (fresh : String) (m : Message) (h : errors[k]? = some r) : ∃ before,
    (m :: errorChain fresh m errors)[k]? = some before ∧
    (errorChain fresh m errors)[k]? = some (Engine.signalMessage fresh r.origin (r.signal before)) := by
  induction k generalizing m errors with
  | zero =>
    cases errors with
    | nil => cases h
    | cons r' errors =>
      cases h
      exact ⟨m, rfl, rfl⟩
  | succ k ih =>
    cases errors with
    | nil => cases h
    | cons r' errors => exact ih _ h

theorem length_errorChain (fresh : String) (m : Message) (errors : List RaisedError) :
    (errorChain fresh m errors).length = errors.length := by
  induction errors generalizing m with
  | nil => rfl
  | cons r errors ih => exact congrArg (· + 1) (ih _)

/-- How the history of errors is kept along a chain of messages that begins with another. -/
structure KeepsHistory (m : Message) (errors : List RaisedError) (messages : List Message) : Prop where
  length : messages.length = errors.length
  /-- The error is described, and counted from the first of the errors of its node that follow each other. Counts are
  words of 64 bits; only a chain that is longer than any word can count shows it. -/
  descriptor : ∀ (k : Nat) (r : RaisedError) (out : Message), errors[k]? = some r → messages[k]? = some out →
    out.get? "error" = some (errorDescriptor r.origin r.text ((1 + streak errors k r.origin.id) % 2 ^ 64))
  /-- Where receivers have taken every error, wherever it was raised, no count comes near the end of the words. -/
  counted : ∀ (k : Nat) (r : RaisedError), errors[k]? = some r →
    (∀ i ≤ k, ∀ (r' : RaisedError) (before : Message), errors[i]? = some r' → (m :: messages)[i]? = some before →
      ∃ (e : Engine) (j : LevelKey), (e.raise j r'.origin (r'.signal before)).2 = true) →
    1 + streak errors k r.origin.id < errorLimit.toNat
  first : ∀ out : Message, messages[0]? = some out → out.get? "_error" = m.get? "_error"
  previous : ∀ (k : Nat) (before out : Message), messages[k]? = some before → messages[k + 1]? = some out →
    out.get? "_error" = before.get? "error"
  others : ∀ (k : Nat) (out : Message), messages[k]? = some out → ∀ key, key ≠ "error" → key ≠ "_error" →
    out.get? key = m.get? key
  /-- The messages are those that the receivers are handed, whoever takes an error. -/
  heard : ∀ (k : Nat) (r : RaisedError) (before out : Message), errors[k]? = some r → (m :: messages)[k]? = some before →
    messages[k]? = some out → ∀ (e : Engine) (j : LevelKey), (e.raise j r.origin (r.signal before)).2 = true →
    ∃ (level : LevelKey) (receivers : List NodeId), (e.raise j r.origin (r.signal before)).1.agenda =
      (receivers.map fun id => .handAt level id out) ++ e.agenda

/-- The count of the error at a place of a chain. -/
theorem toNat_errorCount_of_chain (h : m.get? "error" = none) (hr : errors[k]? = some r)
    (hb : (m :: errorChain fresh m errors)[k]? = some before) :
    (errorCount r.origin (some before)).toNat = (1 + streak errors k r.origin.id) % 2 ^ 64 := by
  induction k generalizing r before with
  | zero =>
    cases hb
    rw [errorCount_of_fresh h, streak_zero]
    rfl
  | succ k ih =>
    obtain ⟨r', hr'⟩ := place_before hr
    obtain ⟨before', hb', hk⟩ := errorChain_place fresh m hr'
    rw [List.getElem?_cons_succ, hk] at hb
    obtain rfl := Option.some.inj hb
    rw [(recounts_signalMessage fresh r' before').carries.toNat_errorCount, ih hr' hb', streak_succ hr']
    by_cases hid : r'.origin.id = r.origin.id
    · rw [if_pos hid, if_pos hid, hid, Nat.mod_add_mod, Nat.add_assoc]
    · rw [if_neg hid, if_neg hid]
      rfl

/-- Where no error up to a place has been dropped, the count there has not come to the limit. -/
theorem streak_lt_of_heard (fresh : String) (h : m.get? "error" = none) (hr : errors[k]? = some r)
    (hheard : ∀ i ≤ k, ∀ (r' : RaisedError) (before : Message), errors[i]? = some r' →
      (m :: errorChain fresh m errors)[i]? = some before → Engine.loops r'.origin (r'.signal before) = false) :
    1 + streak errors k r.origin.id < errorLimit.toNat := by
  induction k generalizing r with
  | zero =>
    rw [streak_zero]
    decide
  | succ k ih =>
    obtain ⟨r', hr'⟩ := place_before hr
    have hbefore := ih hr' fun i hi => hheard i (Nat.le_succ_of_le hi)
    obtain ⟨before, hb, -⟩ := errorChain_place fresh m hr
    have hcount := Nat.lt_of_not_le fun hle => Bool.false_ne_true
      ((hheard (k + 1) (Nat.le_refl _) r before hr hb).symm.trans (Engine.loops_error_iff.mpr hle))
    rw [toNat_errorCount_of_chain h hr hb] at hcount
    -- the count is at most one more than the one before, so it is still far from the end of the words
    have hsmall : 1 + streak errors (k + 1) r.origin.id ≤ errorLimit.toNat := by
      rw [streak_succ hr']
      by_cases hid : r'.origin.id = r.origin.id
      · rw [if_pos hid, ← hid]
        exact (Nat.add_assoc 1 _ 1).symm ▸ hbefore
      · rw [if_neg hid]
        decide
    rwa [Nat.mod_eq_of_lt (Nat.lt_of_le_of_lt hsmall (by decide))] at hcount

/-- All properties but the two of errors stay along a chain. -/
theorem errorChain_others (hout : (errorChain fresh m errors)[k]? = some out) {key : String} (hkey : key ≠ "error")
    (hkey' : key ≠ "_error") : out.get? key = m.get? key := by
  induction k generalizing m errors with
  | zero =>
    cases errors with
    | nil => cases hout
    | cons r errors =>
      cases hout
      exact (recounts_signalMessage fresh r m).others key hkey hkey'
  | succ k ih =>
    cases errors with
    | nil => cases hout
    | cons r errors => exact (ih hout).trans ((recounts_signalMessage fresh r m).others key hkey hkey')

theorem exists_error_of_place (h : (errorChain fresh m errors)[k]? = some out) : ∃ r, errors[k]? = some r := by
  have hk := (List.getElem?_eq_some_iff.mp h).1
  rw [length_errorChain] at hk
  exact ⟨_, List.getElem?_eq_getElem hk⟩

/-- The history of errors is kept along every chain that begins with a message without an error. -/
theorem error_history_kept (fresh : String) (h : m.get? "error" = none) (errors : List RaisedError) :
    KeepsHistory m errors (errorChain fresh m errors) where
  length := length_errorChain fresh m errors
  descriptor k r out hr hout := by
    obtain ⟨before, hb, hk⟩ := errorChain_place fresh m hr
    obtain rfl := Option.some.inj (hk.symm.trans hout)
    rw [(recounts_signalMessage fresh r before).error, toNat_errorCount_of_chain h hr hb]
  counted k r hr hraised := by
    refine streak_lt_of_heard fresh h hr fun i hi r' before hr' hb => ?_
    obtain ⟨e, j, hraise⟩ := hraised i hi r' before hr' hb
    exact (Engine.isTaken_of_raise hraise).1
  first out hout := by
    obtain ⟨r, hr⟩ := exists_error_of_place hout
    obtain ⟨before, hb, hk⟩ := errorChain_place fresh m hr
    obtain rfl := Option.some.inj (hk.symm.trans hout)
    cases hb
    rw [(recounts_signalMessage fresh r m).aside, h, Option.none_or]
  previous k before out hb hout := by
    obtain ⟨r, hr⟩ := exists_error_of_place hout
    obtain ⟨before', hb', hk⟩ := errorChain_place fresh m hr
    obtain rfl := Option.some.inj (hk.symm.trans hout)
    obtain rfl := Option.some.inj (hb.symm.trans hb')
    obtain ⟨r', hr'⟩ := exists_error_of_place hb
    obtain ⟨before', -, hk'⟩ := errorChain_place fresh m hr'
    obtain rfl := Option.some.inj (hk'.symm.trans hb)
    rw [(recounts_signalMessage fresh r _).aside, (recounts_signalMessage fresh r' before').error, Option.some_or]
  others k out hout key hkey hkey' := errorChain_others hout hkey hkey'
  heard k r before out hr hb hout e j hraise := by
    obtain ⟨before', hb', hk⟩ := errorChain_place fresh m hr
    obtain rfl := Option.some.inj (hk.symm.trans hout)
    obtain rfl := Option.some.inj (hb.symm.trans hb')
    obtain ⟨hloops, level, receivers, hroute⟩ := Engine.isTaken_of_raise hraise
    refine ⟨level, receivers, ?_⟩
    rw [Engine.raise_of_taken hloops hroute]
    exact congrArg (· ++ e.agenda) (Engine.signalMessages_error fresh _ level r before receivers)

/-- Two nodes take turns with one message. -/
def relapse : List RaisedError := [⟨⟨"a", "test", none⟩, "x"⟩, ⟨⟨"a", "test", some "A"⟩, "y"⟩, ⟨⟨"b", "test", none⟩, "y"⟩,
  ⟨⟨"a", "test", none⟩, "x"⟩]

/-- Another node's error in between starts the count anew. -/
theorem relapse_counted_anew : let m : Message := ⟨[("_msgid", .str "m"), ("payload", .nat 1)]⟩
    KeepsHistory m relapse (errorChain "n" m relapse) ∧
    (List.range 4).map (fun k => 1 + streak relapse k ((relapse[k]?.map (·.origin.id)).getD "")) = [1, 2, 1, 1] :=
  ⟨error_history_kept "n" rfl relapse, by decide +kernel⟩

end Flowgraph
