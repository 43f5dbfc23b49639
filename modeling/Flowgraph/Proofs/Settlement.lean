import Flowgraph.Proofs.Releasing
/-! Every message that is taken up is settled once, and nothing else is ever raised: each complete and each error answers
one message that a node has taken up, or has been asked for from outside. The nodes of the engine itself answer nothing;
what reaches the complete port of an instance becomes a complete of the usage node. -/
namespace Flowgraph
namespace Engine

variable {state : Nat → Engine} {deed : Nat → Deed} {n i j l : Nat} {e : Engine} {a a' : Action} {k : NodeKey} {m : Message}
  {node : Node} {s : Signal}

/-- What a node of the engine itself makes of a message: it passes it on, or tells it as a status of the usage node. -/
inductive HandsOn (e : Engine) (k : NodeKey) (m : Message) : Engine → Prop
  | drops : HandsOn e k m e
  | sends : HandsOn e k m (e.push [.effect k (.send 0 m)])
  | enters (inst : LevelKey) (input : NodeId) : HandsOn e k m (e.push [.handAt inst input m])
  | tells (event : Event) (p : LevelKey) (origin : Origin) :
      HandsOn e k m ((e.publish event).raise p origin (.status (.ofMessage m))).1

theorem handsOn_hand (hn : e.node? k = some node) (ho : ∀ b, node.part ≠ .ordinary b) (hc : node.part ≠ .sink .complete) :
    HandsOn e k m (e.hand k m) := by
  unfold hand
  rw [hn]
  dsimp only
  split
  · exact .drops
  · split
    · rename_i b hp
      exact absurd hp (ho b)
    · exact .sends
    · split
      · exact .enters _ _
      · exact .drops
    · rename_i port hp
      split
      · cases port with
        | complete => exact absurd hp hc
        | status =>
          unfold reportPort
          split
          · split
            · exact .drops
            · exact .tells _ _ _
          · exact .drops
      · exact .drops

namespace History

variable (h : History state deed n)
include h

/-! ## What a signal answers -/

/-- What is done at j is done for one message only. -/
theorem doneFor_unique (hj : j ≤ n) (hd : deed i = .act a) (hd' : deed l = .act a') (hi : DoneFor state deed i j)
    (hl : DoneFor state deed l j) : i = l := by
  -- a task is started once
  have hnot {i l : Nat} {key : TaskKey} (hil : i < l) (hl : l ≤ n) (hlt : key < (state (i + 1)).nextTask)
      (hle : (state l).nextTask ≤ key) : False :=
    absurd (Nat.lt_of_lt_of_le hlt (h.nextTask_le hil hl)) (Nat.not_lt.mpr hle)
  rcases hi with hs | ⟨t, key, hit, hle, hlt, hdt, hs⟩ <;> rcases hl with hs' | ⟨t', key', hlt', hle', hlt'', hdt', hs'⟩
  · exact hs.unique hs'
  · rw [hs.unique hs', hdt'] at hd
    cases hd
  · rw [hs'.unique hs, hdt] at hd'
    cases hd'
  · obtain rfl := hs.unique hs'
    obtain ⟨rfl⟩ : key = key' := by
      rw [hdt] at hdt'
      cases hdt'
      rfl
    have htn : t ≤ n := Nat.le_trans (Nat.le_of_lt hs.before) hj
    rcases Nat.lt_trichotomy i l with hil | heq | hli
    · exact (hnot hil (Nat.le_trans (Nat.le_of_lt hlt') htn) hlt hle').elim
    · exact heq
    · exact (hnot hli (Nat.le_trans (Nat.le_of_lt hit) htn) hlt'' hle).elim

/-- Every complete and every error answers a message that the node has taken up, or has been asked for. -/
theorem answers (hj : j < n) (hd : deed j = .act a) (hr : Announces (state j) a k s) :
    (∃ i, deed i = .asked ∧ Spawns state i j) ∨
    ∃ i m node b, deed i = .act (.hand k m) ∧ TakesUp (state i) k node b ∧ Replies state deed n i j k s := by
  have hdoes := h.does j hj
  rw [hd] at hdoes
  obtain ⟨agenda, ha⟩ := hdoes.exists_agenda
  obtain ⟨i, hs⟩ := h.exists_spawns (j := j) (by simp [ha])
  have hi : i ≤ n := Nat.le_of_lt (Nat.lt_trans hs.before hj)
  cases h.source hj hd hr hs with
  | direct hdi ht => exact .inr ⟨i, _, _, _, hdi, ht, hj, .inl hs, a, hd, hr⟩
  | @held key p ms m hdi hp hkey ho htask =>
    rcases h.begun hi p hp with hidle | ⟨l, hli, q, hbegin, hsame⟩
    · have hwait : (Delay.hold ms m).wait = signalWhenIdle.wait := congrArg Task.wait (htask.symm.trans hidle)
      cases hwait
    · have hln : l < n := Nat.lt_of_lt_of_le hli hi
      generalize hdl : deed l = d at hbegin
      cases hbegin with
      | mk ht =>
        obtain rfl := ho.symm.trans hsame.owner
        have hkey' : key = (state l).nextTask := hkey.symm.trans hsame.key
        have hlt : key < (state (l + 1)).nextTask := by
          rw [hkey', (h.begins hln hdl ht).1]
          exact Nat.lt_succ_self _
        exact .inr ⟨l, _, _, _, hdl, ht, hj, .inr ⟨i, key, hli, Nat.le_of_eq hkey'.symm, hlt, hdi, hs⟩, a, hd, hr⟩
  | asked hdi => exact .inl ⟨i, hdi, hs⟩

/-! ## Who never answers -/

/-- A node that has been told to stop drops the message. -/
theorem drops (hi : i < n) (hd : deed i = .act (.hand k m)) (hn : (state i).node? k = some node)
    (hc : node.cancelled = true) :
    state (i + 1) = { state i with agenda := (state i).agenda.tail } ∧ Unanswered state deed n i := by
  obtain ⟨agenda, ha⟩ := h.hand_agenda hi hd
  obtain ⟨-, he, -⟩ := h.act_at hi ha rfl
  refine ⟨?_, h.unanswered_of_not_takesUp hi hd fun node' b ht => ?_⟩
  · have hn' : { state i with agenda }.node? k = some node := hn
    rw [he, ha]
    change Engine.hand { state i with agenda } k m = _
    simp only [Engine.hand, hn', hc, if_true, List.tail_cons]
  · obtain rfl := Option.some.inj (ht.there.symm.trans hn)
    rw [ht.awake] at hc
    cases hc

/-- A node of the engine itself answers nothing: it only hands the message on, unless it is the sink of a complete port. -/
theorem hands_on (hi : i < n) (hd : deed i = .act (.hand k m)) (hn : (state i).node? k = some node)
    (ho : ∀ b, node.part ≠ .ordinary b) : Unanswered state deed n i ∧ (node.part ≠ .sink .complete →
      HandsOn { state i with agenda := (state i).agenda.tail } k m (state (i + 1))) := by
  obtain ⟨agenda, ha⟩ := h.hand_agenda hi hd
  obtain ⟨-, he, -⟩ := h.act_at hi ha rfl
  refine ⟨h.unanswered_of_not_takesUp hi hd fun node' b ht => ?_, fun hc => ?_⟩
  · obtain rfl := Option.some.inj (ht.there.symm.trans hn)
    exact ho b ht.part
  · rw [he, ha]
    exact handsOn_hand hn ho hc

/-- What reaches the complete port of an instance is raised around it as a complete of the usage node. -/
theorem completes_usage (hi : i < n) (hd : deed i = .act (.hand k m)) (hn : (state i).node? k = some node)
    (hc : node.cancelled = false) (hpart : node.part = .sink .complete) (hx : (state i).hasLevel node.level = true)
    {binding : Binding} (hb : (state i).binding? node.level = some binding) {p : LevelKey}
    (hp : (state i).enclosing? node.level = some p) : state (i + 1) =
      ({ state i with agenda := (state i).agenda.tail }.raise p (.ofRecord binding.usage) (.complete m)).1 := by
  obtain ⟨agenda, ha⟩ := h.hand_agenda hi hd
  obtain ⟨-, he, -⟩ := h.act_at hi ha rfl
  have hu := h.upholds_pop (Nat.le_of_lt hi) ha rfl
  generalize hs : ({ state i with agenda } : Engine) = s at he hu
  have hn' : s.node? k = some node := hs ▸ hn
  have hx' : s.hasLevel node.level = true := (hu.hasLevel _).trans hx
  have hb' : s.binding? node.level = some binding := hs ▸ hb
  have hp' : s.enclosing? node.level = some p := by
    have hlevel : s.level? node.level = (state i).level? node.level := hs ▸ rfl
    rw [← hp, enclosing?, enclosing?, hlevel, funext hu.hasLevel]
  obtain ⟨around, haround⟩ := level?_of_hasLevel (Option.filter_eq_some_iff.mp hp').2
  have htail : ({ state i with agenda := (state i).agenda.tail } : Engine) = s := by rw [ha]; exact hs
  rw [he, htail]
  change s.hand k m = _
  simp only [Engine.hand, hn', hc, hpart, hx', if_true, reportPort, hb', hp', haround]
  rfl

end History

/-! ## Every message is settled once -/

/-- How the messages of a history are settled. -/
structure SettlesOnce (state : Nat → Engine) (deed : Nat → Deed) (n : Nat) : Prop where
  /-- A node that does not hold messages raises one signal about each, a complete or an error that carries the message as
  it was, when all that it has done for it is over. Until then nothing is raised. -/
  direct : ∀ i k m node b, i < n → deed i = .act (.hand k m) → TakesUp (state i) k node b →
    node.record.type ∈ ["change", "debug", "json", "fail"] →
    (∃ j s, SettledAt state deed n i k node m ((state i).reaction k node b m) j s) ∨
    (Unanswered state deed n i ∧ ∃ above, (state n).agenda =
      above ++ .conclude k m ((state i).reaction k node b m).outcome :: (state i).agenda.tail)
  /-- A node that holds messages completes each after it has been sent on, or drops it. -/
  held : ∀ i k m node b, i < n → deed i = .act (.hand k m) → TakesUp (state i) k node b → node.record.type = "delay" →
    ∃ ms, Delay.holdTime node.record = .ok ms ∧ HeldFate state deed n i k ms m
  /-- A node that is told to stop while it holds a message raises nothing about it. -/
  stopped : ∀ i k m node b, i < n → deed i = .act (.hand k m) → TakesUp (state i) k node b → node.record.type = "delay" →
    ∀ l ≤ n, Told (state l) k → ∀ p ∈ (state l).tasks, p.key = (state i).nextTask → Unanswered state deed n i
  /-- There are no other nodes that take messages up. -/
  kinds : ∀ i k node b, i ≤ n → TakesUp (state i) k node b →
    node.record.type ∈ ["change", "debug", "json", "fail", "delay"]
  /-- A node that has been told to stop drops the message. -/
  dropped : ∀ i k m node, i < n → deed i = .act (.hand k m) → (state i).node? k = some node → node.cancelled = true →
    state (i + 1) = { state i with agenda := (state i).agenda.tail } ∧ Unanswered state deed n i
  /-- Receivers, inputs of instances, usage nodes and the sinks of ports raise nothing about a message; they only hand it
  on, those of complete ports aside. -/
  own : ∀ i k m node, i < n → deed i = .act (.hand k m) → (state i).node? k = some node →
    (∀ b, node.part ≠ .ordinary b) → Unanswered state deed n i ∧ (node.part ≠ .sink .complete →
      HandsOn { state i with agenda := (state i).agenda.tail } k m (state (i + 1)))
  /-- What reaches the complete port of an instance is raised once, around it, as a complete of the usage node. -/
  port : ∀ i k m node binding p, i < n → deed i = .act (.hand k m) → (state i).node? k = some node →
    node.cancelled = false → node.part = .sink .complete → (state i).hasLevel node.level = true →
    (state i).binding? node.level = some binding → (state i).enclosing? node.level = some p → state (i + 1) =
      ({ state i with agenda := (state i).agenda.tail }.raise p (.ofRecord binding.usage) (.complete m)).1
  /-- Nothing else is raised, unless from outside: every complete and every error of a node answers one message that the
  node has taken up. -/
  all : ∀ j a k s, j < n → deed j = .act a → Announces (state j) a k s →
    (∃ i, deed i = .asked ∧ Spawns state i j) ∨
    ∃ i m node b, deed i = .act (.hand k m) ∧ TakesUp (state i) k node b ∧ Replies state deed n i j k s ∧
      ∀ i' k' m', deed i' = .act (.hand k' m') → Replies state deed n i' j k s → i' = i
  /-- The signal goes out from the level of the node, unless that level is gone. -/
  raised : ∀ j a k s node, j < n → deed j = .act a → Announces (state j) a k s → (state j).node? k = some node →
    ∃ agenda, (state j).agenda = a :: agenda ∧ state (j + 1) = if (state j).hasLevel node.level then
      ({ state j with agenda }.raise node.level node.origin s).1 else { state j with agenda }

/-- In every run of an engine with the standard kinds of nodes, messages are settled once. -/
theorem messages_settled_once (h : History state deed n) : SettlesOnce state deed n where
  direct i k m node b hi hd ht htype := by
    cases h.stocked (Nat.le_of_lt hi) k node b ht.there ht.part with
    | direct _ hdirect => exact h.settles hi hd ht hdirect
    | holds hdelay =>
      rw [hdelay] at htype
      exact absurd htype (by decide)
  held i k m node b hi hd ht htype := by
    cases h.stocked (Nat.le_of_lt hi) k node b ht.there ht.part with
    | direct hdirect =>
      rw [htype] at hdirect
      exact absurd hdirect (by decide)
    | @holds ms _ hms => exact ⟨ms, hms, h.holds hi hd ht⟩
  stopped i k m node b hi hd ht htype l hl htold p hp hkey := by
    cases h.stocked (Nat.le_of_lt hi) k node b ht.there ht.part with
    | direct hdirect =>
      rw [htype] at hdirect
      exact absurd hdirect (by decide)
    | holds => exact h.unanswered_of_told hi hd ht hl hp hkey htold
  kinds i k node b hi ht := by
    cases h.stocked hi k node b ht.there ht.part with
    | direct hdirect => exact List.mem_append_left ["delay"] hdirect
    | holds hdelay => simp [hdelay]
  dropped i k m node hi hd hn hc := h.drops hi hd hn hc
  own i k m node hi hd hn hpart := h.hands_on hi hd hn hpart
  port i k m node binding p hi hd hn hc hpart hx hb hp := h.completes_usage hi hd hn hc hpart hx hb hp
  all j a k s hj hd hr := by
    refine (h.answers hj hd hr).imp_right fun ⟨i, m, node, b, hdi, ht, hrep⟩ => ?_
    exact ⟨i, m, node, b, hdi, ht, hrep, fun i' k' m' hdi' hrep' =>
      h.doneFor_unique (Nat.le_of_lt hj) hdi' hdi hrep'.serves hrep.serves⟩
  raised j a k s node hj hd hr hn := h.raised hj hd hr hn

/-! ## Messages from outside -/

/-- A node is handed a message, and then all that comes of it is done, one step after the other. -/
def handedTo (e : Engine) (k : NodeKey) (m : Message) : Nat → Engine
  | 0 => e
  | i + 1 => finishWithin i (e.push [.hand k m])

/-- The steps from one to the next. -/
def deedsFrom (e : Engine) (k : NodeKey) (m : Message) : Nat → Deed
  | 0 => .asked
  | i + 1 => ((e.handedTo k m (i + 1)).agenda.head?.map .act).getD .rest

theorem history_handedTo (hr : Reachable e) (hs : e.registry = Registry.standard) (ha : e.agenda = []) (ht : e.tasks = [])
    (hbusy : ∀ i < n, (e.handedTo k m (i + 1)).broken = false ∧ (e.handedTo k m (i + 1)).agenda ≠ []) :
    History (e.handedTo k m) (e.deedsFrom k m) (n + 1) where
  reachable := hr
  standard := hs
  idle := ha
  free := ht
  does i hi := by
    cases i with
    | zero => exact .asked ha (.hand k m)
    | succ i =>
      obtain ⟨hb, hne⟩ := hbusy i (Nat.lt_of_succ_lt_succ hi)
      obtain ⟨a, agenda, hagenda⟩ := List.exists_cons_of_ne_nil hne
      have hd : e.deedsFrom k m (i + 1) = .act a := by rw [deedsFrom, hagenda]; rfl
      have he : e.handedTo k m (i + 1 + 1) = Engine.act { e.handedTo k m (i + 1) with agenda } a :=
        (finishWithin_add i 1 _).trans (finishWithin_succ 0 hb hagenda)
      rw [hd, he]
      exact .act hb hagenda

end Engine

namespace Session
open Engine

/-- The first tab of some records, started with the standard kinds of nodes. -/
def standardTab (records : List Json) : Engine :=
  (start ⟨{ ((Engine.make .standard .standalone [] [] 500).addLevel
    (.make .tab none (firstTab records))).1 with keptLevels := [0] }, some 0, .empty, []⟩ 0 none).2.engine

theorem reachable_standardTab {records : List Json} (h : (firstTab records).Parsed) : Reachable (standardTab records) := by
  have hmade : Reachable ((Engine.make .standard .standalone [] [] 500).addLevel (.make .tab none (firstTab records))).1 :=
    (Reachable.make _ _ _ _ _).input rfl (.flow (.inl rfl) h)
  exact reachable_start (hmade.input rfl (.keep [0] [])) rfl

/-- A tab with one node. -/
def soloRecords (type : String) : List Json := [
  .obj [("id", .str "t"), ("type", .str "tab")],
  .obj [("id", .str "n"), ("type", .str type), ("z", .str "t")]]

def soloTab (type : String) : Engine := standardTab (soloRecords type)

def soloMessage : Message := .ofJson "m" (.obj [("payload", .nat 1)])

theorem registry_standardTab (records : List Json) : (standardTab records).registry = Registry.standard :=
  registry_of_grows ((Input.call (.start 0 none)).grows.trans (reach_complete _ _).grows)

/-- What comes of the message, one step after the other. -/
theorem soloTab_run : ∀ type ∈ ["change", "delay"], (Deployment.parse (soloRecords type)).isOk = true ∧
    ((soloTab type).agenda.isEmpty = true ∧ (soloTab type).tasks.isEmpty = true) ∧
    (∀ i < 3, ((soloTab type).handedTo 0 soloMessage (i + 1)).broken = false ∧
      ((soloTab type).handedTo 0 soloMessage (i + 1)).agenda.isEmpty = false) ∧
    ((soloTab type).handedTo 0 soloMessage 4).agenda.isEmpty = true ∧
    (((soloTab type).handedTo 0 soloMessage 1).node? 0).map (fun node => (node.cancelled, node.record.type,
      match node.part with | .ordinary _ => true | _ => false)) = some (false, type, true) := by
  decide +kernel

theorem history_soloTab (type : String) (ht : type ∈ ["change", "delay"]) :
    History ((soloTab type).handedTo 0 soloMessage) ((soloTab type).deedsFrom 0 soloMessage) 4 := by
  obtain ⟨hp, ⟨hidle, htasks⟩, hbusy, -⟩ := soloTab_run type ht
  refine history_handedTo (reachable_standardTab (parsed_firstTab hp)) (registry_standardTab _) (List.isEmpty_iff.mp hidle)
    (List.isEmpty_iff.mp htasks) fun i hi => ⟨(hbusy i hi).1, fun hnone => ?_⟩
  simpa [hnone] using (hbusy i hi).2

/-- The node of the tab takes the message up. -/
theorem takesUp_soloTab (type : String) (ht : type ∈ ["change", "delay"]) : ∃ node b,
    TakesUp ((soloTab type).handedTo 0 soloMessage 1) 0 node b ∧ node.record.type = type := by
  obtain ⟨-, -, -, -, hnode⟩ := soloTab_run type ht
  obtain ⟨node, hn, he⟩ := Option.map_eq_some_iff.mp hnode
  obtain ⟨hc, htype, hpart⟩ := by simpa only [Prod.mk.injEq] using he
  cases hp : node.part with
  | ordinary b => exact ⟨node, b, ⟨hn, hc, hp⟩, htype⟩
  | _ =>
    rw [hp] at hpart
    cases hpart

/-- A change node that is handed a message settles it; a delay node holds it. -/
theorem change_settles_delay_holds :
    (∃ state deed n i node b j s, History state deed n ∧ deed i = .act (.hand 0 soloMessage) ∧
      TakesUp (state i) 0 node b ∧ node.record.type = "change" ∧
      SettledAt state deed n i 0 node soloMessage ((state i).reaction 0 node b soloMessage) j s) ∧
    ∃ state deed n i node b ms, History state deed n ∧ deed i = .act (.hand 0 soloMessage) ∧
      TakesUp (state i) 0 node b ∧ node.record.type = "delay" ∧ HeldFate state deed n i 0 ms soloMessage := by
  constructor
  · have hh := history_soloTab "change" (by decide)
    obtain ⟨node, b, ht, htype⟩ := takesUp_soloTab "change" (by decide)
    have hend := (soloTab_run "change" (by decide)).2.2.2.1
    rcases (messages_settled_once hh).direct 1 0 soloMessage node b (by decide) rfl ht (by rw [htype]; decide) with
      ⟨j, s, hsettled⟩ | ⟨-, above, ha⟩
    · exact ⟨_, _, 4, 1, node, b, j, s, hh, rfl, ht, htype, hsettled⟩
    · rw [List.isEmpty_iff.mp hend] at ha
      exact absurd ha.symm (by simp)
  · have hh := history_soloTab "delay" (by decide)
    obtain ⟨node, b, ht, htype⟩ := takesUp_soloTab "delay" (by decide)
    obtain ⟨ms, -, hfate⟩ := (messages_settled_once hh).held 1 0 soloMessage node b (by decide) rfl ht htype
    exact ⟨_, _, 4, 1, node, b, ms, hh, rfl, ht, htype, hfate⟩

/-- A tab with a usage node, whose template wires a node to its complete port. -/
def completedRecords : List Json := [
  .obj [("id", .str "t"), ("type", .str "tab")],
  .obj [("complete", .obj [("wires", .arr [.obj [("id", .str "b"), ("port", .nat 0)]])]), ("id", .str "s"),
    ("type", .str "subflow")],
  .obj [("id", .str "b"), ("rules", .arr []), ("type", .str "change"), ("z", .str "s")],
  .obj [("id", .str "u"), ("type", .str "subflow:s"), ("z", .str "t")]]

def completedTab : Engine := standardTab completedRecords

/-- What comes of a message for the node of the template, until it has reached the complete port. -/
theorem completedTab_run : (Deployment.parse completedRecords).isOk = true ∧
    (completedTab.agenda.isEmpty = true ∧ completedTab.tasks.isEmpty = true) ∧
    (∀ i < 4, (completedTab.handedTo 0 soloMessage (i + 1)).broken = false ∧
      (completedTab.handedTo 0 soloMessage (i + 1)).agenda.isEmpty = false) ∧
    ((completedTab.handedTo 0 soloMessage 4).agenda.head?.bind fun a =>
      match a with | .hand k m => some (k, m) | _ => none) = some (1, soloMessage) ∧
    ((completedTab.handedTo 0 soloMessage 4).node? 1).map (fun node => (node.cancelled,
      match node.part with | .sink .complete => true | _ => false)) = some (false, true) ∧
    (completedTab.handedTo 0 soloMessage 4).notes = [] ∧
    (completedTab.handedTo 0 soloMessage 5).notes = [.completeLeft ⟨"u", "subflow:s", none⟩ soloMessage] := by
  decide +kernel

/-- The sink of a complete port that is handed a message raises a complete: it leaves the flow, as one of the usage
node. -/
theorem port_sink_completes : ∃ state deed n i k m node origin, History state deed n ∧ i < n ∧ deed i = .act (.hand k m) ∧
    (state i).node? k = some node ∧ node.cancelled = false ∧ node.part = .sink .complete ∧ origin.id = "u" ∧
    (state (i + 1)).notes = (state i).notes ++ [.completeLeft origin m] := by
  obtain ⟨hp, ⟨hidle, htasks⟩, hbusy, hhand, hnode, hbefore, hafter⟩ := completedTab_run
  have hh : History (completedTab.handedTo 0 soloMessage) (completedTab.deedsFrom 0 soloMessage) 5 := by
    refine history_handedTo (reachable_standardTab (parsed_firstTab hp)) (registry_standardTab _)
      (List.isEmpty_iff.mp hidle) (List.isEmpty_iff.mp htasks) fun i hi => ⟨(hbusy i hi).1, fun hnone => ?_⟩
    simpa [hnone] using (hbusy i hi).2
  obtain ⟨a, ha, hk⟩ := Option.bind_eq_some_iff.mp hhand
  have hd : completedTab.deedsFrom 0 soloMessage 4 = .act (.hand 1 soloMessage) := by
    rw [deedsFrom, ha]
    cases a with
    | hand k m =>
      obtain ⟨rfl, rfl⟩ := Prod.mk.inj (Option.some.inj hk)
      rfl
    | _ => cases hk
  obtain ⟨node, hn, he⟩ := Option.map_eq_some_iff.mp hnode
  obtain ⟨hc, hpart⟩ := Prod.mk.inj he
  refine ⟨_, _, 5, 4, 1, soloMessage, node, ⟨"u", "subflow:s", none⟩, hh, by decide, hd, hn, hc, ?_, rfl, ?_⟩
  · split at hpart
    · assumption
    · cases hpart
  · rw [hbefore]
    exact hafter

end Session
end Flowgraph
