import Flowgraph.Proofs.ErrorReports
import Flowgraph.Proofs.Settlement
/-! Nodes that change messages do all or nothing: either all rules are followed and what they make of the message is sent
on, or nothing is, and whoever hears of it is told about the message as it was. -/
namespace Flowgraph

/-! ## Rules -/

namespace Change

variable {setting : Lookup} {m m' : Message} {rule : Rule} {rules : List Rule} {fault : NodeFault}

/-- What a rule makes of a message, property by property. -/
inductive Rule.Makes (setting : Lookup) (m : Message) : Rule → Message → Prop
  | set {key kind : String} {v x : Json} {m' : Message} (hv : valueOf setting m v kind = .ok x)
      (hkey : m'.get? key = some x) (hothers : ∀ other, other ≠ key → m'.get? other = m.get? other) :
      Makes setting m (.set key v kind) m'
  | delete {key : String} {m' : Message} (hkey : m'.get? key = none)
      (hothers : ∀ other, other ≠ key → m'.get? other = m.get? other) : Makes setting m (.delete key) m'
  | move {source target : String} {x : Json} {m' : Message} (hv : m.get? source = some x)
      (htarget : m'.get? target = some x) (hsource : source ≠ target → m'.get? source = none)
      (hothers : ∀ other, other ≠ source → other ≠ target → m'.get? other = m.get? other) :
      Makes setting m (.move source target) m'
  /-- There is nothing to move. -/
  | stay {source target : String} (hv : m.get? source = none) : Makes setting m (.move source target) m

/-- What rules make of a message one after the other, each of what those before it have made. -/
inductive Makes (setting : Lookup) : Message → List Rule → Message → Prop
  | done (m : Message) : Makes setting m [] m
  | next {m m₁ m' : Message} {rule : Rule} {rules : List Rule} (h : rule.Makes setting m m₁)
      (rest : Makes setting m₁ rules m') : Makes setting m (rule :: rules) m'

/-- After those before it have been followed, a rule has no value to set. -/
inductive Spoils (setting : Lookup) : Message → List Rule → NodeFault → Prop
  | here {m : Message} {key kind : String} {v : Json} {rules : List Rule} {fault : NodeFault}
      (h : valueOf setting m v kind = .error fault) : Spoils setting m (.set key v kind :: rules) fault
  | later {m m₁ : Message} {rule : Rule} {rules : List Rule} {fault : NodeFault} (h : rule.Makes setting m m₁)
      (rest : Spoils setting m₁ rules fault) : Spoils setting m (rule :: rules) fault

/-- A rule is followed, or has no value to set. -/
theorem Rule.makes_or_spoils (setting : Lookup) (m : Message) (rule : Rule) :
    (∃ m', rule.apply setting m = .ok m' ∧ rule.Makes setting m m') ∨
      ∃ fault, rule.apply setting m = .error fault ∧ ∀ rules, Spoils setting m (rule :: rules) fault := by
  cases rule with
  | set key v kind =>
    cases hv : valueOf setting m v kind with
    | error fault => exact .inr ⟨fault, by rw [Rule.apply, hv]; rfl, fun _ => .here hv⟩
    | ok x =>
      refine .inl ⟨m.insert key x, by rw [Rule.apply, hv]; rfl, .set hv ?_ fun other hne => ?_⟩
      · rw [Message.get?_insert, if_pos rfl]
      · rw [Message.get?_insert, if_neg (Ne.symm hne)]
  | delete key =>
    refine .inl ⟨m.erase key, rfl, .delete ?_ fun other hne => ?_⟩
    · rw [Message.get?_erase, if_pos rfl]
    · rw [Message.get?_erase, if_neg (Ne.symm hne)]
  | move source target =>
    cases hv : m.get? source with
    | none => exact .inl ⟨m, by rw [Rule.apply, hv], .stay hv⟩
    | some x =>
      refine .inl ⟨(m.erase source).insert target x, by rw [Rule.apply, hv],
        .move hv ?_ (fun hne => ?_) fun other hs ht => ?_⟩
      · rw [Message.get?_insert, if_pos rfl]
      · rw [Message.get?_insert, if_neg (Ne.symm hne), Message.get?_erase, if_pos rfl]
      · rw [Message.get?_insert, if_neg (Ne.symm ht), Message.get?_erase, if_neg (Ne.symm hs)]

/-- Either all rules are followed, or one of them spoils what those before it have made. -/
theorem makes_or_spoils (setting : Lookup) (rules : List Rule) (m : Message) :
    (∃ m', applyAll setting rules m = .ok m' ∧ Makes setting m rules m') ∨
      ∃ fault, applyAll setting rules m = .error fault ∧ Spoils setting m rules fault := by
  induction rules generalizing m with
  | nil => exact .inl ⟨m, rfl, .done m⟩
  | cons rule rules ih =>
    have hcons : applyAll setting (rule :: rules) m = (rule.apply setting m).bind fun m₁ => applyAll setting rules m₁ :=
      List.foldlM_cons ..
    rw [hcons]
    rcases rule.makes_or_spoils setting m with ⟨m₁, hrule, hmakes⟩ | ⟨fault, hrule, hspoils⟩
    · rw [hrule]
      rcases ih m₁ with ⟨m', hall, h⟩ | ⟨fault, hall, h⟩
      · exact .inl ⟨m', hall, .next hmakes h⟩
      · exact .inr ⟨fault, hall, .later hmakes h⟩
    · rw [hrule]
      exact .inr ⟨fault, rfl, hspoils rules⟩

variable {situation : Situation}

theorem forwards_of_ok (h : applyAll situation.setting rules m = .ok m') :
    (behaviour rules).onInput situation m = .forward 0 m' := by
  unfold behaviour Behaviour.plain
  dsimp only
  rw [h]

theorem fails_of_error (h : applyAll situation.setting rules m = .error fault) :
    (behaviour rules).onInput situation m = .fail fault := by
  unfold behaviour Behaviour.plain
  dsimp only
  rw [h]

end Change

/-! ## Messages -/

namespace Engine

variable {e e₁ e₂ : Engine} {k : NodeKey} {node : Node} {b : Behaviour} {rules : List Change.Rule} {m m' : Message}
  {fault : NodeFault} {d : Deed} {agenda : List Action}

/-- The engine while it does what comes first on its agenda. -/
def doing (e : Engine) : Engine := { e with agenda := e.agenda.tail }

/-- What goes over the wires of a port; nothing once the level of the node is gone. -/
def overWires (e : Engine) (node : Node) (port : Nat) (m : Message) : List Action :=
  if e.hasLevel node.level then (node.dispatch.targets port).map fun t => .deliver node.level t.node m else []

/-- What comes of a message that a node with rules is handed. -/
inductive Changes (e : Engine) (k : NodeKey) (node : Node) (rules : List Change.Rule) (m : Message) (e₁ : Engine) : Prop
  /-- All rules are followed. What they make of the message goes over the wires next, and nothing else does. -/
  | sends {m' : Message} (hmakes : Change.Makes (e.doing.nodeSetting node) m rules m')
      (he : e₁ = e.doing.push [.effect k (.send 0 m'), .conclude k m .handled])
      (hnext : ∀ d e₂, Does e₁ d e₂ → d = .act (.effect k (.send 0 m')) ∧
        e₂ = e₁.doing.push (e₁.doing.overWires node 0 m'))
  /-- A rule fails. Nothing is sent, and next whoever hears of it is told about the message as it was. -/
  | fails {fault : NodeFault} (hspoils : Change.Spoils (e.doing.nodeSetting node) m rules fault)
      (he : e₁ = e.doing.push [.conclude k m (.failed fault)])
      (hnext : ∀ d e₂, Does e₁ d e₂ → d = .act (.conclude k m (.failed fault)) ∧
        ∃ told, e₂.agenda = told ++ e.agenda.tail ∧ ∀ a ∈ told, ∃ level id out, a = .handAt level id out ∧
          Recounts node.origin fault.message (errorCount node.origin (some m)).toNat m out)

theorem Does.act_doing {a : Action} (h : Does e d e₁) (ha : e.agenda = a :: agenda) :
    d = .act a ∧ e₁ = e.doing.act a := by
  rw [doing, ha]
  exact h.of_agenda ha

/-- A node sends a message over its wires. -/
theorem Does.send (h : Does e d e₁) (hn : e.node? k = some node) (ha : e.agenda = .effect k (.send 0 m) :: agenda) :
    d = .act (.effect k (.send 0 m)) ∧ e₁ = e.doing.push (e.doing.overWires node 0 m) := by
  obtain ⟨hd, rfl⟩ := h.act_doing ha
  refine ⟨hd, ?_⟩
  have hn' : e.doing.node? k = some node := hn
  change e.doing.perform k (.send 0 m) = _
  unfold perform overWires
  rw [hn']
  dsimp only
  split
  · rfl
  · rfl

/-- Whoever hears of a message that a node has not handled is told about the message as it was. -/
theorem Does.conclude_failed (h : Does e d e₁) (hn : e.node? k = some node)
    (ha : e.agenda = .conclude k m (.failed fault) :: agenda) : d = .act (.conclude k m (.failed fault)) ∧
      ∃ told, e₁.agenda = told ++ agenda ∧ ∀ a ∈ told, ∃ level id out, a = .handAt level id out ∧
        Recounts node.origin fault.message (errorCount node.origin (some m)).toNat m out := by
  obtain ⟨hd, rfl⟩ := h.of_agenda ha
  refine ⟨hd, ?_⟩
  have hn' : { e with agenda }.node? k = some node := hn
  change ∃ told, (perform { e with agenda } k (.error fault.message (some m))).agenda = told ++ agenda ∧ _
  unfold perform
  rw [hn']
  dsimp only
  split
  · exact tells_errorCount { e with agenda } node.level ⟨node.origin, fault.message⟩ m
  · exact ⟨[], rfl, List.forall_mem_nil _⟩

/-- A node with rules changes a message as a whole, or not at all. -/
theorem TakesUp.changes (ht : TakesUp e k node (Change.behaviour rules)) (hd : Does e (.act (.hand k m)) e₁) :
    Changes e k node rules m e₁ := by
  obtain ⟨agenda, ha⟩ := hd.exists_agenda
  have he : e₁ = e.doing.hand k m := (hd.act_doing ha).2
  rw [TakesUp.hand_eq (e := e.doing) ⟨ht.there, ht.awake, ht.part⟩ m] at he
  rcases Change.makes_or_spoils (e.doing.nodeSetting node) rules m with ⟨m', hall, hmakes⟩ | ⟨fault, hall, hspoils⟩
  · rw [Change.forwards_of_ok hall] at he
    have hn : e₁.node? k = some node := he ▸ ht.there
    have hagenda : e₁.agenda = .effect k (.send 0 m') :: .conclude k m .handled :: e.agenda.tail := he ▸ rfl
    exact .sends hmakes he fun d e₂ hd₂ => hd₂.send hn hagenda
  · rw [Change.fails_of_error hall] at he
    have hn : e₁.node? k = some node := he ▸ ht.there
    have hagenda : e₁.agenda = .conclude k m (.failed fault) :: e.agenda.tail := he ▸ rfl
    exact .fails hspoils he fun d e₂ hd₂ => hd₂.conclude_failed hn hagenda

/-- The rules of a node of this type are those of its record. -/
theorem Reachable.change_rules (hr : Reachable e) (hk : Dict.get? e.registry "change" = some Change.kind)
    (ht : TakesUp e k node b) (htype : node.record.type = "change") :
    ∃ rules, Change.rules? node.record = some rules ∧ b = Change.behaviour rules := by
  have hcrafted := hr.crafted.nodes k node ht.there
  rw [ht.part] at hcrafted
  cases hcrafted with
  | builtIn _ hb =>
    rw [htype, show builtIn? "change" = none by decide] at hb
    cases hb
  | ordinary _ _ hc =>
    unfold Registry.create at hc
    rw [htype, hk] at hc
    unfold Change.kind at hc
    dsimp only at hc
    cases hrules : Change.rules? node.record with
    | none =>
      rw [hrules] at hc
      cases hc
    | some rules =>
      rw [hrules] at hc
      cases hc
      exact ⟨rules, rfl, rfl⟩

/-- A change node does all or nothing. -/
theorem change_all_or_nothing (hr : Reachable e) (hk : Dict.get? e.registry "change" = some Change.kind)
    (ht : TakesUp e k node b) (htype : node.record.type = "change") (hd : Does e (.act (.hand k m)) e₁) :
    ∃ rules, Change.rules? node.record = some rules ∧ Changes e k node rules m e₁ := by
  obtain ⟨rules, hrules, rfl⟩ := hr.change_rules hk ht htype
  exact ⟨rules, hrules, ht.changes hd⟩

end Engine

namespace Session
open Engine

/-- A tab with a change node that keeps the payload under another name and then sets it anew, by a value of some kind. -/
def changeRecords (kind : String) : List Json := [
  .obj [("id", .str "t"), ("type", .str "tab")],
  .obj [("id", .str "n"), ("type", .str "change"), ("z", .str "t"), ("rules", .arr [
    .obj [("t", .str "set"), ("p", .str "topic"), ("to", .str "payload"), ("tot", .str "msg")],
    .obj [("t", .str "set"), ("p", .str "payload"), ("to", .str "done"), ("tot", .str kind)]])]]

def changeTab (kind : String) : Engine := standardTab (changeRecords kind)

/-- What the node is about to send. -/
def sent? (e : Engine) : Option Message :=
  e.agenda.head?.bind fun a => match a with | .effect _ (.send _ m) => some m | _ => none

theorem changeTab_run : ∀ kind ∈ ["str", "num"], (Deployment.parse (changeRecords kind)).isOk = true ∧
    ((changeTab kind).agenda.isEmpty = true ∧ (changeTab kind).tasks.isEmpty = true) ∧
    ((changeTab kind).handedTo 0 soloMessage 1).broken = false ∧
    (((changeTab kind).handedTo 0 soloMessage 1).node? 0).map (fun node => (node.cancelled, node.record.type,
      match node.part with | .ordinary _ => true | _ => false)) = some (false, "change", true) := by
  decide +kernel

theorem sent?_changeTab : sent? ((changeTab "str").handedTo 0 soloMessage 2) = some ⟨[("_msgid", .str "m"),
      ("payload", .str "done"), ("topic", .nat 1)]⟩ ∧ sent? ((changeTab "num").handedTo 0 soloMessage 2) = none := by
  decide +kernel

/-- With a text, both rules change the message; with what should be a number and is none, it is left as it is. -/
theorem changed_or_left :
    (∃ node rules m', Changes ((changeTab "str").handedTo 0 soloMessage 1) 0 node rules soloMessage
      ((changeTab "str").handedTo 0 soloMessage 2) ∧
      sent? ((changeTab "str").handedTo 0 soloMessage 2) = some m' ∧ m'.get? "payload" = some (.str "done")) ∧
    ∃ node rules fault, Changes ((changeTab "num").handedTo 0 soloMessage 1) 0 node rules soloMessage
      ((changeTab "num").handedTo 0 soloMessage 2) ∧
      Change.Spoils (((changeTab "num").handedTo 0 soloMessage 1).doing.nodeSetting node) soloMessage rules fault := by
  have hchanges (kind : String) (hk : kind ∈ ["str", "num"]) :
      ∃ node rules, Changes ((changeTab kind).handedTo 0 soloMessage 1) 0 node rules soloMessage
        ((changeTab kind).handedTo 0 soloMessage 2) := by
    obtain ⟨hp, ⟨hidle, htasks⟩, hb, hnode⟩ := changeTab_run kind hk
    have hh : History ((changeTab kind).handedTo 0 soloMessage) ((changeTab kind).deedsFrom 0 soloMessage) 2 := by
      refine history_handedTo (reachable_standardTab (parsed_firstTab hp)) (registry_standardTab _)
        (List.isEmpty_iff.mp hidle) (List.isEmpty_iff.mp htasks) fun i hi => ?_
      obtain rfl := Nat.lt_one_iff.mp hi
      exact ⟨hb, List.cons_ne_nil _ _⟩
    obtain ⟨node, hn, he⟩ := Option.map_eq_some_iff.mp hnode
    obtain ⟨hc, htype, hpart⟩ := by simpa only [Prod.mk.injEq] using he
    cases hp : node.part with
    | ordinary b =>
      have hstandard : ((changeTab kind).handedTo 0 soloMessage 1).registry = Registry.standard :=
        hh.registry_at (by decide)
      obtain ⟨rules, -, h⟩ := change_all_or_nothing (hh.reachable_at (i := 1) (by decide))
        (by rw [hstandard]; rfl) ⟨hn, hc, hp⟩ htype (hh.does 1 (by decide))
      exact ⟨node, rules, h⟩
    | _ =>
      rw [hp] at hpart
      cases hpart
  obtain ⟨hsent, hnone⟩ := sent?_changeTab
  constructor
  · obtain ⟨node, rules, h⟩ := hchanges "str" (by decide)
    exact ⟨node, rules, _, h, hsent, rfl⟩
  · obtain ⟨node, rules, h⟩ := hchanges "num" (by decide)
    refine ⟨node, rules, ?_⟩
    cases h with
    | sends _ he =>
      rw [he] at hnone
      cases hnone
    | @fails fault hspoils he hnext => exact ⟨fault, .fails hspoils he hnext, hspoils⟩

end Session
end Flowgraph
