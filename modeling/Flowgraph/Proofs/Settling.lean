import Flowgraph.Proofs.Histories
/-! Messages that are settled while they are handled. A node that does not hold messages raises one signal about each, a
complete or an error, when all that it has sent for it has been dealt with. -/
namespace Flowgraph

/-- The signal that ends the handling of a message. -/
def Outcome.signal? (m : Message) : Outcome → Option Signal
  | .handled => some (.complete m)
  | .deferred => none
  | .failed fault => some (.error fault.message (some m))

namespace Engine

variable {state : Nat → Engine} {deed : Nat → Deed} {n i j l t : Nat} {e e' : Engine} {a : Action} {k k' : NodeKey}
  {m : Message} {node : Node} {b : Behaviour} {s : Signal} {key : TaskKey} {p : Pending} {agenda : List Action} {ms : Nat}

/-! ## Signals -/

/-- By this action a node raises a complete or an error. -/
inductive Announces (e : Engine) : Action → NodeKey → Signal → Prop
  | complete (k : NodeKey) (m : Message) : Announces e (.effect k (.complete m)) k (.complete m)
  | error (k : NodeKey) (text : String) (about : Option Message) :
      Announces e (.effect k (.error text about)) k (.error text about)
  | handled {k : NodeKey} {node : Node} (m : Message) (hn : e.node? k = some node) (hc : node.completes = true) :
      Announces e (.conclude k m .handled) k (.complete m)
  | failed (k : NodeKey) (m : Message) (fault : NodeFault) :
      Announces e (.conclude k m (.failed fault)) k (.error fault.message (some m))

/-- The signal goes out from the level of the node, unless that level is gone. -/
theorem Announces.act_eq (h : Announces e a k s) (hn : e.node? k = some node) :
    e.act a = if e.hasLevel node.level then (e.raise node.level node.origin s).1 else e := by
  cases h with
  | complete k m => simp only [act, perform, hn]
  | error k text about => simp only [act, perform, hn]
  | handled m hn' hc =>
    obtain rfl := Option.some.inj (hn'.symm.trans hn)
    simp only [act, conclude, hn, hc, perform, if_true]
  | failed k m fault => simp only [act, conclude, perform, hn]

theorem announces_conclude {outcome : Outcome} (hs : outcome.signal? m = some s) (hn : e.node? k = some node)
    (hc : node.completes = true) : Announces e (.conclude k m outcome) k s := by
  cases outcome with
  | handled =>
    cases hs
    exact .handled m hn hc
  | deferred => cases hs
  | failed fault =>
    cases hs
    exact .failed k m fault

theorem Announces.pop (h : Announces e a k s) (agenda : List Action) : Announces { e with agenda } a k s := by
  cases h with
  | complete k m => exact .complete k m
  | error k text about => exact .error k text about
  | handled m hn hc => exact .handled m hn hc
  | failed k m fault => exact .failed k m fault

theorem Announces.of_conclude {outcome : Outcome} (h : Announces e (.conclude k' m outcome) k s) :
    k' = k ∧ outcome.signal? m = some s := by
  cases h <;> exact ⟨rfl, rfl⟩

/-- Of the three actions of a task that has held a message, the second completes it. -/
theorem Announces.of_held {before after : List Action} {owner : NodeKey} (h : Announces e a k s)
    (hl : before ++ a :: after = [.effect owner (.send 0 m), .effect owner (.complete m), .finishTask key]) :
    owner = k ∧ s = .complete m ∧ a :: after = [.effect owner (.complete m), .finishTask key] := by
  rcases before with - | ⟨x, - | ⟨y, - | ⟨z, before⟩⟩⟩
  · obtain ⟨rfl, -⟩ := List.cons.inj hl
    cases h
  · obtain ⟨-, hrest⟩ := List.cons.inj hl
    obtain ⟨rfl, -⟩ := List.cons.inj hrest
    cases h
    exact ⟨rfl, rfl, hrest⟩
  · obtain ⟨-, hrest⟩ := List.cons.inj hl
    obtain ⟨-, hrest⟩ := List.cons.inj hrest
    obtain ⟨rfl, -⟩ := List.cons.inj hrest
    cases h
  · have hlen := congrArg List.length hl
    simp at hlen

theorem Announces.plans (h : Announces e a k s) : a.plans = false := by
  cases h <;> rfl

theorem Announces.not_passes (h : Announces e a k s) : ¬a.Passes := by
  rintro ⟨⟩ <;> cases h

/-! ## What is done for a message -/

/-- What is done at j is done for the message of the deed at i: it was put on the agenda then, or by a turn of a task that
was started then. -/
def DoneFor (state : Nat → Engine) (deed : Nat → Deed) (i j : Nat) : Prop :=
  Spawns state i j ∨ ∃ t key, i < t ∧ (state i).nextTask ≤ key ∧ key < (state (i + 1)).nextTask ∧
    deed t = .turn (.task key) ∧ Spawns state t j

/-- For the message of the deed at i a node raises a complete or an error at j. -/
structure Replies (state : Nat → Engine) (deed : Nat → Deed) (n i j : Nat) (k : NodeKey) (s : Signal) : Prop where
  before : j < n
  serves : DoneFor state deed i j
  raises : ∃ a, deed j = .act a ∧ Announces (state j) a k s

/-- Nothing has been raised for the message of the deed at i. -/
def Unanswered (state : Nat → Engine) (deed : Nat → Deed) (n i : Nat) : Prop := ∀ j k s, ¬Replies state deed n i j k s

/-- What a node makes of the message that it is handed next. -/
def reaction (e : Engine) (k : NodeKey) (node : Node) (b : Behaviour) (m : Message) : Reaction :=
  b.onInput (situation { e with agenda := e.agenda.tail } k node) m

theorem TakesUp.eq {node' : Node} {b' : Behaviour} (h : TakesUp e k node b) (h' : TakesUp e k node' b') :
    node' = node ∧ b' = b := by
  obtain rfl := Option.some.inj (h.there.symm.trans h'.there)
  exact ⟨rfl, (Part.ordinary.inj (h.part.symm.trans h'.part)).symm⟩

namespace History

/-- A signal goes out from the level of the node, unless that level is gone. -/
theorem raised (h : History state deed n) (hj : j < n) (hd : deed j = .act a) (hr : Announces (state j) a k s)
    (hn : (state j).node? k = some node) : ∃ agenda, (state j).agenda = a :: agenda ∧
      state (j + 1) = if (state j).hasLevel node.level then
        ({ state j with agenda }.raise node.level node.origin s).1 else { state j with agenda } := by
  have hdoes := h.does j hj
  rw [hd] at hdoes
  obtain ⟨agenda, ha⟩ := hdoes.exists_agenda
  refine ⟨agenda, ha, ?_⟩
  rw [(h.act_at hj ha hr.plans).2.1, (hr.pop agenda).act_eq hn, (h.upholds_pop (Nat.le_of_lt hj) ha hr.plans).hasLevel]

end History

/-- An element of a list with a known end comes before the end, or is the end. -/
theorem mem_or_last {α : Type} {before after xs : List α} {x z : α} (h : before ++ x :: after = xs ++ [z]) :
    x ∈ xs ∨ (x = z ∧ after = []) := by
  rcases List.eq_nil_or_concat' after with rfl | ⟨after', y, rfl⟩
  · exact .inr ⟨List.head_eq_of_cons_eq (List.append_inj' h rfl).2, rfl⟩
  · rw [← List.cons_append, ← List.append_assoc] at h
    exact .inl ((List.append_inj' h rfl).1 ▸ List.mem_append_right _ List.mem_cons_self)

namespace History

variable (h : History state deed n)
include h

theorem hand_agenda (hi : i < n) (hd : deed i = .act (.hand k m)) : ∃ agenda, (state i).agenda = .hand k m :: agenda := by
  have hdoes := h.does i hi
  rw [hd] at hdoes
  exact hdoes.exists_agenda

/-- What a node that takes a message up puts on the agenda. -/
theorem takes_agenda (hi : i < n) (hd : deed i = .act (.hand k m)) (ht : TakesUp (state i) k node b) :
    (state (i + 1)).agenda = ((state i).reaction k node b m).effects.map (.effect k) ++
      .conclude k m ((state i).reaction k node b m).outcome :: (state i).agenda.tail := by
  obtain ⟨agenda, ha⟩ := h.hand_agenda hi hd
  obtain ⟨-, -, pushed, hpush, hp⟩ := h.act_at hi ha rfl
  have ht' : TakesUp { state i with agenda } k node b := ⟨ht.there, ht.awake, ht.part⟩
  cases hp with
  | passes hno => exact absurd ht' (hno k m rfl node b)
  | takes h' =>
    obtain ⟨rfl, rfl⟩ := ht'.eq h'
    rw [hpush, reaction, ha, List.append_assoc]
    rfl

/-- Every task is one of a node that is told to close, or of a message that is held. -/
theorem begun (hl : l ≤ n) : ∀ p ∈ (state l).tasks,
    SignalsClose p ∨ ∃ i < l, ∃ q, BeginsHold (state i) (deed i) q ∧ q.Same p := by
  induction l with
  | zero => simp [h.free]
  | succ l ih =>
    intro p hp
    rcases ((h.does l hl).inherits (h.stocked (Nat.le_of_succ_le hl))).tasks p hp with ⟨q, hq, hsame⟩ | ⟨-, -, hbegin⟩
    · rcases ih (Nat.le_of_succ_le hl) q hq with hidle | ⟨i, hi, q', hbegin, hsame'⟩
      · exact .inl (hsame.task.trans hidle)
      · exact .inr ⟨i, by omega, q', hbegin, hsame.key.trans hsame'.key, hsame.owner.trans hsame'.owner,
          hsame.task.trans hsame'.task⟩
    · exact hbegin.imp id fun hb => ⟨l, by omega, p, hb, .refl p⟩

/-- What a signal about a message comes from. -/
inductive Source (state : Nat → Engine) (deed : Nat → Deed) (i j : Nat) (k : NodeKey) (s : Signal) : Prop
  /-- It ends the handling of a message that has been taken up. -/
  | direct {m : Message} {node : Node} {b : Behaviour} (hd : deed i = .act (.hand k m))
      (ht : TakesUp (state i) k node b) (ho : ((state i).reaction k node b m).outcome.signal? m = some s)
      (ha : (state j).agenda = .conclude k m ((state i).reaction k node b m).outcome :: (state i).agenda.tail)
  /-- It completes a message that has been held and sent on. -/
  | held {key : TaskKey} {p : Pending} {ms : Nat} {m : Message} (hd : deed i = .turn (.task key))
      (hp : p ∈ (state i).tasks) (hkey : p.key = key) (ho : p.owner = k) (ht : p.task = Delay.hold ms m)
      (hawake : (state i).isCancelled k = false) (hs : s = .complete m)
      (hpush : (state (i + 1)).agenda = [.effect k (.send 0 m), .effect k (.complete m), .finishTask key])
      (ha : (state j).agenda = [.effect k (.complete m), .finishTask key])
  | asked (hd : deed i = .asked)

theorem source (hj : j < n) (hd : deed j = .act a) (hr : Announces (state j) a k s) (hs : Spawns state i j) :
    Source state deed i j k s := by
  have hdoes := h.does j hj
  rw [hd] at hdoes
  obtain ⟨agenda, hagenda⟩ := hdoes.exists_agenda
  have hall := (h.unmixed (Nat.le_of_lt hj)).of_message (hagenda ▸ List.mem_cons_self) hr.plans
  obtain ⟨-, before, a', after, hbrought, hpush, hj'⟩ := h.spawns (Nat.le_of_lt hj) hs hall
  obtain rfl : a' = a := List.head_eq_of_cons_eq (hj'.symm.trans hagenda)
  generalize hdi : deed i = d at hbrought
  generalize hlist : before ++ a' :: after = pushed at hbrought
  have hmem : a' ∈ pushed := hlist ▸ List.mem_append_right _ List.mem_cons_self
  cases hbrought with
  | nothing => cases hmem
  | @act b _ hp =>
    cases hp with
    | passes _ hpass => exact absurd (hpass a' hmem) hr.not_passes
    | @takes k' m node b ht =>
      have ht' : TakesUp (state i) k' node b := ⟨ht.there, ht.awake, ht.part⟩
      have hi : i ≤ n := Nat.le_of_lt (Nat.lt_trans hs.before hj)
      rcases mem_or_last hlist with hf | ⟨rfl, rfl⟩
      · obtain ⟨f, hf', rfl⟩ := List.mem_map.mp hf
        rcases (h.stocked hi k' node b ht'.there ht'.part).effects _ m f hf' with ⟨port, m', rfl⟩ | ⟨status, rfl⟩ <;>
          cases hr
      · obtain ⟨rfl, ho⟩ := hr.of_conclude
        exact .direct hdi ht' ho hj'
  | call key =>
    obtain rfl := List.mem_singleton.mp hmem
    cases hr
  | @task key p hfind hk =>
    obtain ⟨hp, hkey⟩ := mem_of_find?_key hfind
    have hi : i ≤ n := Nat.le_of_lt (Nat.lt_trans hs.before hj)
    rcases h.begun hi p hp with hidle | ⟨l, -, q, hbegin, hsame⟩
    · rw [show p.task = signalWhenIdle from hidle] at hmem
      rcases List.mem_cons.mp hmem with rfl | hmem
      · cases hr
      · obtain rfl := List.mem_singleton.mp hmem
        cases hr
    · obtain ⟨ms, m, ht⟩ : ∃ ms m, p.task = Delay.hold ms m := by
        generalize deed l = d at hbegin
        cases hbegin with
        | mk => exact ⟨_, _, hsame.task⟩
      rw [ht] at hlist hk
      have hdoes := h.does i (Nat.lt_trans hs.before hj)
      rw [hdi] at hdoes
      have htail : (state i).agenda.tail = [] := by rw [hdoes.turns.2.1, List.tail_nil]
      rw [htail, List.append_nil] at hpush hj'
      rw [hlist] at hpush
      obtain ⟨ho, hs', hafter⟩ := hr.of_held hlist
      rw [hafter] at hj'
      have hawake : (state i).isCancelled p.owner = false := hk
      exact .held hdi hp hkey ho ht (ho ▸ hawake) hs' (ho ▸ hkey ▸ hpush) (ho ▸ hkey ▸ hj')
  | asked => exact .asked hdi

/-! ## Messages that are settled while they are handled -/

/-- A node that is handed a message starts a task only if it begins to hold it. -/
theorem hand_lends (hi : i < n) (hd : deed i = .act (.hand k m)) :
    Lends (BeginsHold (state i) (.act (.hand k m))) (state i) (state (i + 1)) := by
  obtain ⟨agenda, ha⟩ := h.hand_agenda hi hd
  obtain ⟨-, he, -⟩ := h.act_at hi ha rfl
  have hpop : Lends (BeginsHold (state i) (.act (.hand k m))) (state i) { state i with agenda } :=
    .of_lent rfl rfl (fun _ h => h) fun _ h => h
  have hstocked : Stocked { state i with agenda } := h.stocked (Nat.le_of_lt hi)
  rw [he]
  refine hpop.trans ((lends_hand hstocked k m).mono fun p hp => ?_)
  cases hp with
  | mk ht => exact .mk ⟨ht.there, ht.awake, ht.part⟩

/-- Where no task is started, all that is done for a message has been put on the agenda at once. -/
theorem spawns_of_doneFor (hi : i < n) (hd : deed i = .act (.hand k m))
    (hno : ∀ q, ¬BeginsHold (state i) (.act (.hand k m)) q) (hdone : DoneFor state deed i j) : Spawns state i j := by
  refine hdone.resolve_right fun ⟨t, key, _, hle, hlt, _⟩ => ?_
  obtain ⟨new, -, hnext, -, hnew⟩ := (h.hand_lends hi hd).tasks
  cases new with
  | nil => exact absurd (Nat.lt_of_le_of_lt hle hlt) (by rw [hnext]; exact Nat.lt_irrefl _)
  | cons q new => exact hno q (hnew q List.mem_cons_self).1

/-- Nothing is raised for a message that nobody has taken up. -/
theorem unanswered_of_not_takesUp (hi : i < n) (hd : deed i = .act (.hand k m))
    (hno : ∀ node b, ¬TakesUp (state i) k node b) : Unanswered state deed n i := by
  intro j k' s hrep
  obtain ⟨a, hda, hr⟩ := hrep.raises
  have hs := h.spawns_of_doneFor hi hd (fun q hq => by cases hq with | mk ht => exact hno _ _ ht) hrep.serves
  cases h.source hrep.before hda hr hs with
  | direct hd' ht =>
    rw [hd] at hd'
    cases hd'
    exact hno _ _ ht
  | held hd' => rw [hd] at hd'; cases hd'
  | asked hd' => rw [hd] at hd'; cases hd'

end History

/-- The message that a node has been handed at i is settled at j: the handling ends when all that the node has done for
the message is over, with one signal that carries the message as it was. -/
structure SettledAt (state : Nat → Engine) (deed : Nat → Deed) (n i : Nat) (k : NodeKey) (node : Node) (m : Message)
    (r : Reaction) (j : Nat) (s : Signal) : Prop where
  reply : Replies state deed n i j k s
  signal : r.outcome.signal? m = some s
  /-- The signal goes out from the level of the node. -/
  raised : (state i).hasLevel node.level = true →
    state (j + 1) = ({ state j with agenda := (state i).agenda.tail }.raise node.level node.origin s).1
  /-- The handling ends last of all that has come of it. -/
  last : (state j).agenda = .conclude k m r.outcome :: (state i).agenda.tail
  /-- Each effect has had its time before, one after the other. -/
  done : ∀ before f after, r.effects = before ++ f :: after → ∃ l, i < l ∧ l < j ∧
    (state l).agenda = .effect k f :: (after.map (.effect k) ++ .conclude k m r.outcome :: (state i).agenda.tail)
  only : ∀ j' k' s', Replies state deed n i j' k' s' → j' = j ∧ k' = k ∧ s' = s

namespace History

variable (h : History state deed n)
include h

theorem direct_reply (hi : i < n) (hd : deed i = .act (.hand k m)) (ht : TakesUp (state i) k node b)
    (hdirect : ∀ situation m, (b.onInput situation m).Direct) (hrep : Replies state deed n i j k' s) :
    Spawns state i j ∧ k' = k ∧ ((state i).reaction k node b m).outcome.signal? m = some s ∧
      (state j).agenda = .conclude k m ((state i).reaction k node b m).outcome :: (state i).agenda.tail := by
  obtain ⟨a, hda, hr⟩ := hrep.raises
  have hno (q : Pending) : ¬BeginsHold (state i) (.act (.hand k m)) q := fun hq => by
    cases hq with
    | mk ht' =>
      obtain ⟨-, rfl⟩ := ht.eq ht'
      exact (hdirect (situation (state i) k node) m).outcome rfl
  have hs := h.spawns_of_doneFor hi hd hno hrep.serves
  cases h.source hrep.before hda hr hs with
  | direct hd' ht' ho ha =>
    rw [hd] at hd'
    cases hd'
    obtain ⟨rfl, rfl⟩ := ht.eq ht'
    exact ⟨hs, rfl, ho, ha⟩
  | held hd' => rw [hd] at hd'; cases hd'
  | asked hd' => rw [hd] at hd'; cases hd'

/-- A message that is taken up by a node that holds none is settled exactly once, or still being handled. -/
theorem settles (hi : i < n) (hd : deed i = .act (.hand k m)) (ht : TakesUp (state i) k node b)
    (hdirect : ∀ situation m, (b.onInput situation m).Direct) :
    (∃ j s, SettledAt state deed n i k node m ((state i).reaction k node b m) j s) ∨
    (Unanswered state deed n i ∧ ∃ above, (state n).agenda =
      above ++ .conclude k m ((state i).reaction k node b m).outcome :: (state i).agenda.tail) := by
  have hpush := h.takes_agenda hi hd ht
  obtain ⟨agenda, hagenda⟩ := h.hand_agenda hi hd
  have hout : ((state i).reaction k node b m).outcome ≠ .deferred := (hdirect _ m).outcome
  have hreply (j : Nat) (k' : NodeKey) (s : Signal) (hrep : Replies state deed n i j k' s) :=
    h.direct_reply hi hd ht hdirect hrep
  generalize (state i).reaction k node b m = r at hpush hout hreply ⊢
  -- a reply is given when the end of the handling has come
  have hnot {j : Nat} (hbetween : ∀ l, i + 1 ≤ l → l < j →
      (.conclude k m r.outcome :: (state i).agenda.tail : List Action).length < (state l).agenda.length) {l : Nat}
      {k' : NodeKey} {s : Signal} (hl : l < j) (hrep : Replies state deed n i l k' s) : False := by
    obtain ⟨hs, -, -, ha⟩ := hreply _ _ _ hrep
    exact absurd (hbetween l hs.before hl) (by rw [ha]; exact Nat.lt_irrefl _)
  rcases h.reaches (i := i + 1) hi hpush rfl with ⟨j, hij, hjn, ha, hbetween⟩ | ⟨above, -, ha, hbetween⟩
  · rcases Nat.lt_or_eq_of_le hjn with hj | rfl
    · obtain ⟨hda, -, -⟩ := h.act_at hj ha rfl
      have hs : Spawns state i j := by
        refine ⟨hij, by simp [ha], ?_, fun l hil hlj => by rw [ha]; exact hbetween l hil hlj⟩
        rw [ha, hagenda]
        exact Nat.le_refl _
      obtain ⟨node', hn', hkin⟩ := (h.grows (Nat.le_of_lt hs.before) hjn).node k node ht.there
      obtain ⟨s, hsig⟩ : ∃ s, r.outcome.signal? m = some s := by
        cases ho : r.outcome with
        | handled => exact ⟨_, rfl⟩
        | deferred => exact absurd ho hout
        | failed fault => exact ⟨_, rfl⟩
      have hcompletes : node'.completes = true := by rw [Node.completes, hkin.part, ht.part]
      have hann : Announces (state j) _ k s := announces_conclude hsig hn' hcompletes
      refine .inl ⟨j, s, ⟨hj, .inl hs, _, hda, hann⟩, hsig, fun hx => ?_, ha, fun before f after hf => ?_,
        fun j' k' s' hrep => ?_⟩
      · have hm := (h.unmixed (Nat.le_of_lt hi)).of_message (hagenda ▸ List.mem_cons_self) rfl
        have hbusy (l : Nat) (hl : i ≤ l) (hlj : l < j) : (state l).agenda ≠ [] := by
          rcases Nat.eq_or_lt_of_le hl with rfl | hl
          · simp [hagenda]
          · exact List.ne_nil_of_length_pos (Nat.zero_lt_of_lt (hbetween l hl hlj))
        have hx' := h.hasLevel_while (Nat.le_of_lt hs.before) hjn hm hbusy node.level
        obtain ⟨agenda', ha', he⟩ := h.raised hj hda hann hn'
        obtain ⟨-, rfl⟩ := List.cons.inj (ha'.symm.trans ha)
        rw [he, hkin.level, hx', hx, if_pos rfl, Node.origin, hkin.record]
        rfl
      · rw [hf, List.map_append, List.map_cons, List.append_assoc, List.cons_append] at hpush
        rcases (h.take hjn).reaches (i := i + 1) hij hpush rfl with ⟨l, hil, hlj, hal, -⟩ | ⟨above, -, hal, -⟩
        · refine ⟨l, hil, Nat.lt_of_le_of_ne hlj fun hl => ?_, hal⟩
          have hlen := congrArg List.length (ha.symm.trans (hl ▸ hal))
          simp at hlen
          omega
        · have hlen := congrArg List.length (ha.symm.trans hal)
          simp at hlen
          omega
      · obtain ⟨hs', hk, hsig', ha'⟩ := hreply _ _ _ hrep
        exact ⟨hs'.eq_of_length hs (by rw [ha, ha']), hk, Option.some.inj (hsig'.symm.trans hsig)⟩
    · exact .inr ⟨fun l k' s hrep => hnot hbetween hrep.before hrep, [], ha⟩
  · refine .inr ⟨fun l k' s hrep => hnot (j := n) (fun l hl hln => hbetween l hl (Nat.le_of_lt hln)) hrep.before hrep, above, ha⟩

end History

end Engine
end Flowgraph
