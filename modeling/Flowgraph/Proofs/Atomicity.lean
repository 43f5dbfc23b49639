import Flowgraph.Proofs.Indifference
import Flowgraph.Proofs.Protocol
/-! Starts happen as a whole or not at all. What a start is refused for is known before anything is touched; and one that
is not refused then is not refused later, whatever configuration the flow has and whatever its diff names, and does not
end before the flow has been started. -/
namespace Flowgraph

/-- What a start is refused for. -/
def Level.Refuses (l : Level) (diff : Option Diff) : Prop :=
  (∃ fault, StartOrder.validate l.config = .error fault) ∨ l.phase = .stopping ∨ l.phase = .started ∧ diff = none

namespace Engine

variable {e e' m : Engine} {i j k : LevelKey} {n : NodeKey} {key : CallKey} {ns : List NodeKey} {c c' : Call} {l : Level}
  {config old : FlowConfig} {diff : Option Diff} {D : Nat}

theorem exists_checkStart_error : (∃ fault, checkStart l diff = .error fault) ↔ l.Refuses diff := by
  unfold Level.Refuses checkStart
  cases StartOrder.validate l.config with
  | error fault => simp
  | ok order =>
    cases hp : l.phase with
    | started => cases diff <;> simp
    | _ => simp

theorem checkStart_eq_ok (h : ¬l.Refuses diff) : checkStart l diff = .ok () := by
  cases hc : checkStart l diff with
  | ok u => rfl
  | error fault => exact absurd (exists_checkStart_error.mp ⟨fault, hc⟩) h

theorem not_refuses_of_isOk (h : (checkStart l diff).isOk = true) : ¬l.Refuses diff := by
  rw [← exists_checkStart_error]
  rintro ⟨fault, hc⟩
  rw [hc] at h
  cases h

theorem sound_of_not_refuses (h : ¬l.Refuses diff) : l.config.Sound := by
  unfold FlowConfig.Sound
  cases hv : StartOrder.validate l.config with
  | ok order => exact ⟨order, rfl⟩
  | error fault => exact absurd (.inl ⟨fault, hv⟩) h

/-! ## Steps to which no call is added -/

/-- One step of an engine of which nothing is asked but to deal with messages and signals. Time moves on time. -/
inductive Lone (e e' : Engine) : Prop
  | runs (ht : Tick e e') (hc : e'.now = e.now ∨ e.OnTime e'.now)
  | given (ha : e.agenda = []) (hq : Quiet e e') (hs : Tranquil [] e e')

/-- Another call, which has nothing left to do, is gone on with. -/
theorem Solo.heeds_resume (h : Solo e key) (hj : j ≠ key) {agenda : List Action} (ha : e.agenda = .resume j :: agenda) :
    Heeds key ns e (Engine.act { e with agenda } (.resume j)) := by
  have hover := (resumes_over (resumes_resume { e with agenda } j) fun c hc => h j c hc hj).1
  change (Engine.act { e with agenda } (.resume j)).uncalled = _ at hover
  generalize Engine.act { e with agenda } (.resume j) = e' at hover ⊢
  have he : e' = { e with agenda, calls := e'.calls } := by
    have := congrArg (fun s : Engine => { s with calls := e'.calls }) hover
    exact this
  rw [he]
  refine ⟨rfl, fun _ ht => ht, fun _ _ hr => hr, ?_, fun _ _ => .inl rfl⟩
  unfold Roused
  rw [ha]
  refine Or.imp id (Or.imp id fun hm => ?_)
  exact (List.mem_cons.mp hm).resolve_left fun he => hj (Action.resume.inj he).symm

/-- A call under way alone stays alone, and goes on, waits, or makes nodes. -/
theorem Lone.advances (h : Lone e e') (hs : Solo e key) : Solo e' key ∧ Advances e key e' := by
  cases h with
  | runs ht => exact hs.tick ht
  | given ha hq =>
    refine ⟨fun j c hj => hs j c ((call?_of_still hq.still j).symm.trans hj), .idles ⟨.of_still hq.still ?_ ?_,
      call?_of_still hq.still key⟩⟩
    · exact fun a hm => .inl (hq.plan ▸ hm)
    · exact fun a hm _ => hq.plan ▸ hm

/-- While the call itself does not go on and no node is to be made, nothing but messages changes. -/
theorem Advances.idle (h : Advances e key e') (hne : ∀ agenda, e.agenda ≠ .resume key :: agenda)
    (hp : ∀ a ∈ e.plan, ∃ j, a = .resume j) : Idles key e e' := by
  cases h with
  | idles hi => exact hi
  | @makes a rest _ ha hm =>
    obtain ⟨j, rfl⟩ := hp a (mem_plan_of_makes ha hm)
    cases hm
  | @resumes rest _ _ ha _ => exact absurd ha (hne rest)

/-- What a step is to a call that is under way alone: the call goes on itself, or time moves, or nothing is missed. -/
theorem Lone.kinds (h : Lone e e') (hs : Solo e key) (hu : e'.broken = false) (ha : e.Attends key ns) :
    (∃ agenda, e.agenda = .resume key :: agenda ∧ e' = Engine.act { e with agenda } (.resume key)) ∨
    (∃ moment, e.agenda = [] ∧ e' = e.moveTo moment ∧ e.now ≤ moment ∧ (moment = e.now ∨ e.OnTime moment)) ∨
    Heeds key ns e e' ∧ e'.call? key = e.call? key ∧ ((∀ agenda, e.agenda ≠ .resume key :: agenda) ∨ e' = e) := by
  cases h with
  | given hagenda hq ht =>
    refine .inr (.inr ⟨ht.heeds (fun _ _ => List.not_mem_nil) fun hm => ?_, call?_of_still hq.still key,
      .inl (by simp [hagenda])⟩)
    rw [hagenda] at hm
    cases hm
  | runs ht hc =>
    cases ht with
    | @act a agenda hbroken hagenda =>
      by_cases hres : ∃ j, a = .resume j
      · obtain ⟨j, rfl⟩ := hres
        by_cases hj : j = key
        · subst hj
          exact .inl ⟨agenda, hagenda, rfl⟩
        · exact .inr (.inr ⟨hs.heeds_resume hj hagenda,
            call?_of_besides (resumes_resume { e with agenda } j).besides (Ne.symm hj), .inl (by simp [hagenda, hj])⟩)
      · have hne (j : CallKey) : a ≠ .resume j := fun he => hres ⟨j, he⟩
        refine .inr (.inr ⟨heeds_pop hagenda (hne key) ?_,
          call?_of_calls (calls_of_register (register_act (e := { e with agenda }) hne)) key,
          .inl (by simp [hagenda, hne key])⟩)
        cases hq : a.isQuiet with
        | true => exact heeds_act hq ha
        | false =>
          refine heeds_makes ?_ hu
          cases a <;> simp_all [Action.makes, Action.isQuiet]
    | @turn w hbroken hagenda hready =>
      refine .inr (.inr ⟨heeds_turn hagenda w, ?_, .inl (by simp [hagenda])⟩)
      rcases (Tick.turn hbroken hagenda hready).kinds with ⟨hst, -⟩ | ⟨-, -, hst, -⟩ | ⟨a, rest, -, -, hcons, -⟩
      · exact call?_of_still hst key
      · exact call?_of_still hst key
      · rw [hagenda] at hcons
        cases hcons
    | wake hagenda =>
      exact .inr (.inr ⟨heeds_wakePutOff hagenda, call?_of_still (quiet_wakePutOff e).still key,
        .inl (by simp [hagenda])⟩)
    | time moment =>
      cases hagenda : e.agenda with
      | nil =>
        rw [(moves_moveTo hagenda moment).now] at hc
        exact .inr (.inl ⟨moment, rfl, rfl, hc.elim (fun hc => Nat.le_of_eq hc.symm) fun hc => hc.onward, hc⟩)
      | cons a agenda =>
        have he : e.moveTo moment = e := by
          unfold Engine.moveTo
          rw [hagenda]
          rfl
        rw [he]
        exact .inr (.inr ⟨Tranquil.heeds (.refl [] e) (fun _ _ => List.not_mem_nil) id, rfl, .inr rfl⟩)

theorem Lone.grows (h : Lone e e') : Grows e e' := by
  cases h with
  | runs ht => exact ht.grows
  | given _ hq => exact hq.grows

/-! ## The level of the start -/

theorem configured_configured (e : Engine) (k : LevelKey) (config old : FlowConfig) :
    (e.configured k old).configured k config = e.configured k config := by
  have hlevels : (e.levels.modify k fun l => { l with config := old }).modify k (fun l => { l with config }) =
      e.levels.modify k fun l => { l with config } := by
    refine Array.ext_getElem? fun i => ?_
    simp only [Array.getElem?_modify]
    by_cases hk : k = i <;> simp [hk, Function.comp_def]
  exact congrArg (fun levels => { e with levels }) hlevels

/-- A level that is given the configuration it has. -/
theorem configured_self (hl : e.level? k = some l) : e.configured k l.config = e := by
  have hlevels : e.levels.modify k (fun l' => { l' with config := l.config }) = e.levels := by
    refine Array.ext_getElem? fun i => ?_
    rw [Array.getElem?_modify]
    split
    · rename_i hk
      subst hk
      rw [show e.levels[k]? = some l from hl]
      rfl
    · rfl
  exact congrArg (fun levels => { e with levels }) hlevels

/-- Levels lie in each other as they should, but for the configuration of one of them. -/
structure Regular (k : LevelKey) (e : Engine) : Prop where
  laid : ∃ old, Laid (e.configured k old)
  housed : Housed e
  manned : Manned e

theorem Regular.apart (h : Regular k e) (id : NodeId) : e.instance? k id ≠ some k := by
  obtain ⟨old, hl⟩ := h.laid
  intro hi
  exact Nat.lt_irrefl _ (hl.lt_instance ((instance?_configured k old k id).trans hi))

/-- With the configuration that it should have, the level is in order. -/
theorem Regular.restored (h : Regular k e) :
    ∃ old, Laid (e.configured k old) ∧ Housed (e.configured k old) ∧ Manned (e.configured k old) := by
  obtain ⟨old, hlaid⟩ := h.laid
  refine ⟨old, hlaid, fun j u i hi => ?_, fun j u i n hi hn => ?_⟩
  · rw [activeKey?_configured]
    exact h.housed j u i ((instance?_configured k old j u).symm.trans hi)
  · exact h.manned j u i n ((instance?_configured k old j u).symm.trans hi)
      ((activeKey?_configured k old j u).symm.trans hn)

theorem Regular.of_eq (h : Regular k e) (hl : e'.levels = e.levels) (hn : e'.nodes = e.nodes) (hw : e'.world = e.world)
    (hp : e'.nextPrivate = e.nextPrivate) : Regular k e' := by
  have hlevel (j : LevelKey) : e'.level? j = e.level? j := by rw [level?, level?, hl]
  have hnode (n : NodeKey) : e'.node? n = e.node? n := by rw [node?, node?, hn]
  obtain ⟨old, hlaid⟩ := h.laid
  have hmod : (e'.configured k old).levels = (e.configured k old).levels := by
    rw [configured, configured, modifyLevel, modifyLevel, hl]
  refine ⟨⟨old, hlaid.of_levels (.of_eq hmod hn hw hp) fun j => by rw [level?, level?, hmod]⟩, ?_, ?_⟩
  · intro j u i
    rw [instance?, activeKey?, hlevel]
    exact h.housed j u i
  · intro j u i n
    rw [instance?, activeKey?, hlevel, StandsIn, hnode]
    exact h.manned j u i n

theorem Regular.lulls (h : Regular k e) (hl : Lulls e e') : Regular k e' := by
  obtain ⟨old, hlaid⟩ := h.laid
  have hstill := congrArg (configured k old) hl.still
  refine ⟨⟨old, ?_⟩, ?_, ?_⟩
  · have hu : Laid (e.configured k old).uncalled := hlaid.of_levels (.of_eq rfl rfl rfl rfl) fun _ => rfl
    have hu' : Laid (e'.configured k old).uncalled := hu.still hstill
    exact hu'.of_levels (.of_eq rfl rfl rfl rfl) fun _ => rfl
  · intro j u i
    rw [instance?, activeKey?, hl.level?]
    exact h.housed j u i
  · intro j u i n hi hn
    rw [instance?, hl.level?] at hi
    rw [activeKey?, hl.level?] at hn
    refine standsIn_of_face ?_ (h.manned j u i n hi hn)
    have hface := congrArg (Option.map Node.face) (hl.node? n)
    rwa [Option.map_map, Option.map_map] at hface

/-! ## What the phases of a start leave as it is -/

/-- A stop leaves the level with its configuration, and lets no instance come. -/
theorem Stops.keeps_config (h : Stops e e') (hl : ∃ l, e.level? k = some l ∧ l.config = config)
    (ha : ∀ id, e.instance? k id ≠ some k) :
    (∃ l, e'.level? k = some l ∧ l.config = config) ∧ ∀ id, e'.instance? k id ≠ some k := by
  refine h.invariant (P := fun s => (∃ l, s.level? k = some l ∧ l.config = config) ∧ ∀ id, s.instance? k id ≠ some k)
    (fun s s' ⟨⟨l, hs, hc⟩, ha⟩ ht => ?_) ⟨hl, ha⟩
  have hmod (j : LevelKey) (f : Level → Level) (hf : ∀ l, (f l).config = l.config ∧
      ∀ id i, (f l).instances.get? id = some i → l.instances.get? id = some i) :
      (∃ l, (s.modifyLevel j f).level? k = some l ∧ l.config = config) ∧
        ∀ id, (s.modifyLevel j f).instance? k id ≠ some k := by
    rw [level?_modifyLevel]
    refine ⟨?_, fun id => ?_⟩
    · split
      · exact ⟨f l, by rw [hs]; rfl, (hf l).1.trans hc⟩
      · exact ⟨l, hs, hc⟩
    · have hi := ha id
      rw [instance?, level?_modifyLevel]
      rw [instance?, hs] at hi
      rw [hs]
      split
      · exact fun hn => hi ((hf l).2 id k hn)
      · exact hi
  cases ht with
  | still h _ =>
    refine ⟨⟨l, (level?_of_still h k).trans hs, hc⟩, fun id => ?_⟩
    rw [instance?, level?_of_still h]
    exact ha id
  | phase j p => exact hmod j _ fun _ => ⟨rfl, fun _ _ h => h⟩
  | receivers j rs => exact hmod j _ fun _ => ⟨rfl, fun _ _ h => h⟩
  | leave j targets _ _ => exact hmod j _ fun _ => ⟨rfl, fun _ _ h => h⟩
  | cancel n => exact ⟨⟨l, hs, hc⟩, ha⟩
  | forget j u _ =>
    refine hmod j _ fun _ => ⟨rfl, fun id i hi => ?_⟩
    rw [Dict.get?_erase] at hi
    split at hi
    · cases hi
    · exact hi

/-- The wiring of an instance leaves all other levels alone. -/
theorem level?_rewireInstance (hj : j ≠ i) (outer : Wires) : (e.rewireInstance i outer).level? j = e.level? j := by
  cases hb : e.binding? i with
  | none =>
    unfold rewireInstance
    rw [hb]
  | some b =>
    cases hx : b.expand? outer with
    | none =>
      unfold rewireInstance
      rw [hb]
      dsimp only
      rw [hx]
      rfl
    | some nodes =>
      rw [rewireInstance_eq hb hx, level?_modifyLevel, if_neg hj.symm, level?, levels_rewireNodes]
      rfl

/-- The rewiring of its nodes leaves a level alone that is none of their instances. -/
theorem level?_rewireOnes (config : FlowConfig) (ids : List NodeId) (ha : ∀ id, e.instance? k id ≠ some k) :
    (ids.foldl (rewireOne k config) e).level? k = e.level? k := by
  induction ids generalizing e with
  | nil => rfl
  | cons id ids ih =>
    have hentries := (rewires_rewireOne k config e id).entries k
    rw [List.foldl_cons, ih fun id' => by rw [(hentries id').2]; exact ha id']
    unfold rewireOne
    split
    · rw [level?, levels_updateWires]
      split
      · rename_i hi
        exact level?_rewireInstance (fun hk => ha id (by rw [hi, ← hk])) _
      · rfl
    · rfl

theorem level?_rewired (e : Engine) (config : FlowConfig) (diff : Option Diff) (ha : ∀ id, e.instance? k id ≠ some k) :
    (e.rewired k config diff).level? k = (e.level? k).map fun l => { l with phase := .started } := by
  unfold rewired
  rw [level?_modifyLevel, if_pos rfl]
  cases diff with
  | none => rfl
  | some d =>
    dsimp only
    rw [rewire_eq, level?_rewireOnes config _ ha]

/-! ## From the question to the start -/

/-- The stages of a start that has not been applied yet. -/
inductive Leads (k : LevelKey) (config : FlowConfig) (diff : Option Diff) : List Stage → Prop
  | asked : Leads k config diff [.start k diff]
  | stops (ids : List NodeId) (removal : Removal)
      (h : ∀ id ∈ ids, ∃ d, diff = some d ∧ (id ∈ d.changed ∨ id ∈ d.removed)) :
      Leads k config diff [.stop [⟨k, some ids, removal⟩], .apply k config diff]
  | applies : Leads k config diff [.apply k config diff]

/-- A start that has not been applied yet. -/
structure Heading (key : CallKey) (k : LevelKey) (config : FlowConfig) (diff : Option Diff) (e : Engine) (c : Call) :
    Prop where
  call : e.call? key = some c
  fault : c.fault = none
  unended : c.ended = none
  leads : Leads k config diff c.stages
  waits : c.waiting ≠ [] → c.stages = [.apply k config diff]
  level : ∃ l, e.level? k = some l ∧ l.config = config
  unrefused : c.stages = [.start k diff] → ∀ l, e.level? k = some l → ¬l.Refuses diff
  apart : ∀ id, e.instance? k id ≠ some k
  plan : ∀ a ∈ e.plan, ∃ j, a = .resume j

/-- A start that has been applied. -/
structure Applied (key : CallKey) (k : LevelKey) (e : Engine) (c : Call) : Prop where
  call : e.call? key = some c
  fault : c.fault = none
  stages : c.stages = []
  waiting : c.waiting = []
  level : ∃ l, e.level? k = some l ∧ l.phase = .started

/-- A start that is not refused. -/
def Accepts (key : CallKey) (k : LevelKey) (config : FlowConfig) (diff : Option Diff) (e : Engine) (c : Call) : Prop :=
  Heading key k config diff e c ∨ Applied key k e c

theorem Heading.lulls (h : Heading key k config diff e c) (hl : Lulls e e') (hc : e'.call? key = some c')
    (hf : c'.fault = none) (hu : c'.ended = none) (hs : Leads k config diff c'.stages)
    (hw : c'.waiting ≠ [] → c'.stages = [.apply k config diff])
    (ha : c'.stages = [.start k diff] → c.stages = [.start k diff]) : Heading key k config diff e' c' := by
  refine ⟨hc, hf, hu, hs, hw, ?_, fun hs l hl' => ?_, fun id => ?_, fun a hm => ?_⟩
  · rw [hl.level?]
    exact h.level
  · rw [hl.level?] at hl'
    exact h.unrefused (ha hs) l hl'
  · rw [instance?, hl.level?]
    exact h.apart id
  · exact (hl.plan a hm).elim (h.plan a) id

/-- Something else has happened. -/
theorem Heading.idles (h : Heading key k config diff e c) (hi : Idles key e e') : Heading key k config diff e' c :=
  h.lulls hi.toLulls (hi.call.trans h.call) h.fault h.unended h.leads h.waits id

/-- The start is about to go on. -/
theorem Heading.pop {agenda : List Action} (h : Heading key k config diff e c) (ha : e.agenda = .resume key :: agenda) :
    Heading key k config diff { e with agenda } c := h.idles ⟨.pop ha, rfl⟩

/-- Stops begin or go on before the start is applied. -/
theorem Heading.stops (h : Heading key k config diff e c) (hs : Stops e m) {stops : List Stopping}
    (hp : Proceeds m key stops e') (ha : c.stages = [.apply k config diff]) :
    ∃ c', Heading key k config diff e' c' ∧ c'.stages = c.stages := by
  obtain ⟨hlevel, hapart⟩ := hs.keeps_config h.level h.apart
  have hmid : Heading key k config diff m c := by
    refine ⟨(call?_of_shell hs.shell key).trans h.call, h.fault, h.unended, h.leads, h.waits, hlevel, fun hs => ?_,
      hapart, fun a hm => h.plan a ?_⟩
    · rw [ha] at hs
      cases hs
    · unfold Engine.plan at *
      rwa [hs.agenda] at hm
  obtain ⟨waiting, report, hcall⟩ := hp.call hmid.call
  exact ⟨_, hmid.lulls hp.lulls hcall h.fault h.unended h.leads (fun _ => ha) id, rfl⟩

/-- A start that has something to be stopped first, or nothing. -/
theorem Heading.begins (h : Heading key k config diff e c) (hs : c.stages = [.start k diff]) (hw : c.waiting = [])
    (hst : Starts (e.modifyCall key fun c => { c with stages := [] }) key k diff e') :
    ∃ c', Heading key k config diff e' c' ∧ c'.waiting = [] ∧ .resume key ∈ e'.agenda ∧
      (diff = none ∧ c'.stages = [.apply k config diff] ∨ Lulls e e' ∧ e'.dueNow = e.dueNow) := by
  obtain ⟨l, hl, hconfig⟩ := h.level
  have hcall : (e.modifyCall key fun c => { c with stages := [] }).call? key = some { c with stages := [] } := by
    rw [call?_modifyCall, if_pos rfl, h.call]
    rfl
  have hok := checkStart_eq_ok (h.unrefused hs l hl)
  cases hst with
  | nowhere hnone =>
    have hnone : e.level? k = none := hnone
    rw [hl] at hnone
    cases hnone
  | refused hl' hc =>
    obtain rfl := Option.some.inj (hl.symm.trans hl')
    rw [hok] at hc
    cases hc
  | @fresh l' hl' hd hc =>
    obtain rfl := Option.some.inj (hl.symm.trans hl')
    subst hconfig hd
    have hlevel : ((e.modifyCall key fun c => { c with stages := [] }).modifyLevel k
        fun l => { l with failures := [] }).level? k = some { l with failures := [] } := by
      rw [level?_modifyLevel, if_pos rfl]
      exact congrArg (Option.map _) hl
    have hinst := Stands.modifyLevel e k (fun l => { l with failures := [] }) fun _ => ⟨rfl, rfl⟩
    refine ⟨_, ⟨call?_proceed hcall _, h.fault, h.unended, .applies, fun hne => absurd hw hne, ⟨_, hlevel, rfl⟩, nofun,
      fun id hi => h.apart id ((hinst.inst k id).symm.trans hi), fun a hm => ?_⟩, hw, List.mem_cons_self, .inl ⟨rfl, rfl⟩⟩
    rw [plan_proceed] at hm
    exact (List.mem_cons.mp hm).elim (fun he => ⟨key, he⟩) (h.plan a)
  | @again l' d hl' hd hc =>
    obtain rfl := Option.some.inj (hl.symm.trans hl')
    subst hconfig hd
    have hl (stages : List Stage) : Lulls e ((e.modifyCall key fun c => { c with stages := [] }).proceed key stages) :=
      (Lulls.modifyCall e key fun c => { c with stages := [] }).trans (.proceed _ key stages)
    refine ⟨_, h.lulls (hl _) (call?_proceed hcall _) h.fault h.unended ?_ (fun hne => absurd hw hne) ?_, hw,
      List.mem_cons_self, .inr ⟨hl _, rfl⟩⟩
    · dsimp only
      split
      · exact .applies
      · refine .stops _ _ fun id hid => ⟨d, rfl, List.mem_append.mp (List.mem_filter.mp hid).1⟩
    · dsimp only
      split <;> simp

/-- The configuration is applied, which no check prevents any more. -/
theorem Heading.activates (h : Heading key k config diff e c) (hconfig : config.Sound)
    (ha : Applies (e.modifyCall key fun c => { c with stages := [] }) key k config diff e') :
    (∃ l, ((e.modifyCall key fun c => { c with stages := [] }).rewired k config diff).level? k = some l ∧
      l.phase = .started) ∧
    ∃ order, StartOrder.resolve config.nodes = .ok order ∧
      e' = (((e.modifyCall key fun c => { c with stages := [] }).rewired k config diff).push
        [.announce k, .resume key]).activated k config order := by
  obtain ⟨l, hl, rfl⟩ := h.level
  have hrewired := level?_rewired (e.modifyCall key fun c => { c with stages := [] }) l.config diff h.apart
  rw [show (e.modifyCall key fun c => { c with stages := [] }).level? k = some l from hl, Option.map_some] at hrewired
  refine ⟨⟨_, hrewired, rfl⟩, ?_⟩
  cases ha with
  | nowhere hnone =>
    rw [hrewired] at hnone
    cases hnone
  | @activates l' order hl' ho =>
    obtain rfl := Option.some.inj (hrewired.symm.trans hl')
    exact ⟨order, ho, rfl⟩
  | @refused l' fault hl' ho =>
    obtain rfl := Option.some.inj (hrewired.symm.trans hl')
    obtain ⟨order, ho'⟩ := hconfig.resolve
    rw [ho'] at ho
    cases ho

/-- The call has nothing left to do then but to end. -/
theorem Heading.applies (h : Heading key k config diff e c) (hconfig : config.Sound) (hw : c.waiting = [])
    (ha : Applies (e.modifyCall key fun c => { c with stages := [] }) key k config diff e') :
    ∃ c', Applied key k e' c' ∧ .resume key ∈ e'.agenda := by
  obtain ⟨⟨l, hl, hphase⟩, order, -, rfl⟩ := h.activates hconfig ha
  have hcall : (e.modifyCall key fun c => { c with stages := [] }).call? key = some { c with stages := [] } := by
    rw [call?_modifyCall, if_pos rfl, h.call]
    rfl
  have hcalls := (call?_of_calls (calls_rewired _ k config diff) key).trans hcall
  refine ⟨_, ⟨hcalls, h.fault, rfl, hw, ?_⟩, ?_⟩
  · rw [level?_activated, if_pos rfl, level?_push, hl]
    exact ⟨_, rfl, hphase⟩
  · exact List.mem_append_right _ (List.mem_cons_of_mem _ List.mem_cons_self)

/-- What the next step of a start comes to. -/
theorem Heading.resumes (h : Heading key k config diff e c) (hconfig : config.Sound) (hres : Resumes e key e') :
    ∃ c', Accepts key k config diff e' c' := by
  cases hres with
  | unknown hnone =>
    rw [h.call] at hnone
    cases hnone
  | ends hc _ hs =>
    obtain rfl := Option.some.inj (h.call.symm.trans hc)
    have hl := h.leads
    rw [hs] at hl
    cases hl
  | @waits c' hc hw =>
    obtain rfl := Option.some.inj (h.call.symm.trans hc)
    obtain ⟨c', hc', -⟩ := h.stops (stops_pollStops key (e, []) c.waiting) (proceeds_afterStops _ key _) (h.waits hw)
    exact ⟨c', .inl hc'⟩
  | @stage c' stage rest hc hw hs =>
    obtain rfl := Option.some.inj (h.call.symm.trans hc)
    have hl := h.leads
    rw [hs] at hl
    cases hl with
    | asked =>
      obtain ⟨c', hc', -⟩ := h.begins hs hw (starts_start _ key k diff)
      exact ⟨c', .inl hc'⟩
    | applies =>
      obtain ⟨c', hc', -⟩ := h.applies hconfig hw (applies_apply _ key k config diff)
      exact ⟨c', .inr hc'⟩
    | stops ids removal _ =>
      have hcall : (e.modifyCall key fun c => { c with stages := [.apply k config diff] }).call? key =
          some { c with stages := [.apply k config diff] } := by
        rw [call?_modifyCall, if_pos rfl, h.call]
        rfl
      have hmid := h.lulls (.modifyCall e key _) hcall h.fault h.unended .applies (fun _ => rfl) nofun
      obtain ⟨c', hc', -⟩ := hmid.stops (stops_beginStops key (_, []) [⟨k, some ids, removal⟩])
        (proceeds_afterStops _ key _) rfl
      exact ⟨c', .inl hc'⟩

/-- A start that has been applied ends. -/
theorem Applied.resumes (h : Applied key k e c) (hres : Resumes e key e') :
    ∃ c', Applied key k e' c' ∧ Lulls e e' ∧ c'.ended.isSome = true := by
  cases hres with
  | unknown hnone =>
    rw [h.call] at hnone
    cases hnone
  | @ends c' hc _ hs =>
    obtain rfl := Option.some.inj (h.call.symm.trans hc)
    refine ⟨{ c with ended := c.ended <|> some e.now, holds := [] }, ⟨?_, h.fault, h.stages, h.waiting, h.level⟩,
      .modifyCall e key _, ?_⟩
    · rw [call?_modifyCall, if_pos rfl, h.call]
      rfl
    · cases c.ended <;> rfl
  | @waits c' hc hw =>
    obtain rfl := Option.some.inj (h.call.symm.trans hc)
    exact absurd h.waiting hw
  | @stage c' stage rest hc _ hs =>
    obtain rfl := Option.some.inj (h.call.symm.trans hc)
    rw [h.stages] at hs
    cases hs

/-- A start that has been applied stays so. -/
theorem Applied.keeps (h : Applied key k e c) (hk : KeepsPlaces e e') (hc : e'.call? key = e.call? key) :
    Applied key k e' c := by
  obtain ⟨l, hl, hp⟩ := h.level
  obtain ⟨l', hl', -, -, hp'⟩ := hk k l hl
  exact ⟨hc.trans h.call, h.fault, h.stages, h.waiting, l', hl', hp'.trans hp⟩

/-- No step refuses the start any more. -/
theorem Accepts.advances (h : Accepts key k config diff e c) (hconfig : config.Sound) (ha : Advances e key e') :
    ∃ c', Accepts key k config diff e' c' := by
  cases ha with
  | idles hi =>
    rcases h with h | h
    · exact ⟨c, .inl (h.idles hi)⟩
    · exact ⟨c, .inr (h.keeps (.of_level? hi.level?) hi.call)⟩
  | @makes a rest hb hagenda hm =>
    rcases h with h | h
    · obtain ⟨j, rfl⟩ := h.plan a (mem_plan_of_makes hagenda hm)
      cases hm
    · have hne (j : CallKey) : a ≠ .resume j := by
        rintro rfl
        cases hm
      have hk : KeepsPlaces e { e with agenda := rest } := .of_level? fun _ => rfl
      exact ⟨c, .inr (h.keeps (hk.trans (keepsPlaces_act hne))
        (call?_of_calls (calls_of_register (register_act (e := { e with agenda := rest }) hne)) key))⟩
  | @resumes rest e' hb hagenda hres =>
    rcases h with h | h
    · exact (h.pop hagenda).resumes hconfig hres
    · have hrest : Applied key k { e with agenda := rest } c := h.keeps (.of_level? fun _ => rfl) rfl
      obtain ⟨c', hc', -⟩ := hrest.resumes hres
      exact ⟨c', .inr hc'⟩

/-! ## Nothing keeps a start from its end -/

section

variable (k) (config)

theorem afterStops_configured (e : Engine) (key : CallKey) (stops : List Stopping) :
    (e.configured k config).afterStops key stops = (e.afterStops key stops).configured k config := by
  have hroom : ((e.configured k config).modifyCall key fun c => { c with waiting := stops }).room = e.room := rfl
  have hroom' : (e.modifyCall key fun c => { c with waiting := stops }).room = e.room := rfl
  unfold afterStops
  dsimp only
  rw [hroom, hroom']
  split
  · split <;> rfl
  · rfl

/-- A stop stage does not look at configurations. -/
theorem act_stop_configured {requests : List StopRequest} {stages : List Stage} (hc : e.call? key = some c)
    (hw : c.waiting = []) (hs : c.stages = .stop requests :: stages) (agenda : List Action) :
    Engine.act { e.configured k config with agenda } (.resume key) =
      (Engine.act { e with agenda } (.resume key)).configured k config := by
  have hstops := beginStops_configured k config key requests (e.taken key agenda stages, [])
  rw [act_resume hc hw hs, act_resume (e := e.configured k config) hc hw hs]
  change ((e.taken key agenda stages).configured k config).stopAll key requests = ((e.taken key agenda stages).stopAll key
    requests).configured k config
  rw [stopAll_eq, stopAll_eq, ← afterStops_configured]
  exact congrArg (fun s : Engine × List Stopping => s.1.afterStops key s.2) hstops

/-- Closes do not look at configurations. -/
theorem Closes.configured {s : Engine} {given : List Order} {base : Tally} {js : List (Order × Verdict)}
    (h : Closes D key s given base e c js) :
    Closes D key (s.configured k config) given base (e.configured k config) c js :=
  ⟨h.call, h.orders, h.tally, ⟨h.underway.once, h.underway.calm, h.underway.standsIn,
    fun a ha => ⟨(h.underway.awaits a ha).onTime, (h.underway.awaits a ha).timer⟩⟩, h.within, h.idle, h.alive, h.onTime⟩

end

/-- A call whose stops have finished goes on at once. -/
theorem roused_afterStops {stops : List Stopping} (hc : (e.afterStops key stops).call? key = some c)
    (hw : c.waiting = []) : (e.afterStops key stops).Roused key := by
  rcases afterStops_cases e key stops with ⟨hlt, e', he, hcall, -⟩ | ⟨-, he⟩
  · rw [he, hcall, call?_modifyCall, if_pos rfl] at hc
    obtain ⟨c₀, -, rfl⟩ := Option.map_eq_some_iff.mp hc
    rw [show stops = [] from hw] at hlt
    cases hlt
  · rw [he]
    exact .inr (.inr List.mem_cons_self)

theorem closeTimeout_of_world (h : e'.world = e.world) : e'.closeTimeout = e.closeTimeout :=
  congrArg (fun w => w.2.2.2.2) h

/-- What keeps a start going: it has ended, it is roused, or it waits for nodes that have time left. -/
inductive Presses (D : Nat) (key : CallKey) (k : LevelKey) (e : Engine) (c : Call) : Prop
  | ended (h : c.ended.isSome = true)
  /-- Nothing has been stopped yet. -/
  | fresh (h : e.Roused key) (hw : c.waiting = []) (hD : e.dueNow = D) (hr : Regular k e)
  | waits (hw : c.waiting ≠ []) {s : Engine} {given : List Order} {base : Tally} {js : List (Order × Verdict)}
      (h : Closes D key s given base e c js) (hg : Grows s e) (hk : ∀ o ∈ given, o.node < s.nodes.size)
  /-- Nothing is left to be stopped. -/
  | roused (h : e.Roused key) (hw : c.waiting = []) (hs : ∀ stage ∈ c.stages, ∃ config diff, stage = .apply k config diff)

/-- Stops that have been begun or gone on with: the start waits for nodes that have time left, or goes on at once. -/
theorem Closes.presses {s : Engine} {given : List Order} {base : Tally} {js : List (Order × Verdict)}
    (h : Closes D key s given base e c js) (hg : Grows s e) (hk : ∀ o ∈ given, o.node < s.nodes.size)
    (hr : c.waiting = [] → e.Roused key) (hs : c.stages = [.apply k config diff]) : Presses D key k e c := by
  by_cases hw : c.waiting = []
  · refine .roused (hr hw) hw fun stage hm => ⟨config, diff, ?_⟩
    rw [hs] at hm
    exact List.mem_singleton.mp hm
  · exact .waits hw h hg hk

/-- The stop stage of a start begins. -/
theorem Regular.presses_stop {agenda : List Action} {requests : List StopRequest} (hr : Regular k e)
    (hl : e.level? k = some l) (hb : e.broken = false) (ha : e.agenda = .resume key :: agenda)
    (hc : e.call? key = some c) (hw : c.waiting = [])
    (hs : c.stages = [.stop requests, .apply k config diff]) :
    ∃ c', (Engine.act { e with agenda } (.resume key)).call? key = some c' ∧
      Presses e.dueNow key k (Engine.act { e with agenda } (.resume key)) c' := by
  obtain ⟨old, hlaid, hhoused, hmanned⟩ := hr.restored
  obtain ⟨m, stops, given, served, c', js, ho, -, -, -, -, hcloses, hstages, -⟩ :=
    closes_open (e := e.configured k old) hlaid hhoused hmanned hc hw hs rfl agenda
  have hself : (e.configured k old).configured k l.config = e := by
    rw [configured_configured, configured_self hl]
  have hknown (o : Order) (hm : o ∈ given) : o.node < e.nodes.size := by
    have hlaid' := hlaid.taken key agenda [.apply k config diff]
    obtain ⟨j, id, hact⟩ := (((ho.departs hlaid').left o.node).mp (List.mem_map_of_mem hm)).1
    exact hlaid'.activeKey?_lt hact
  have hc' := hcloses.configured k l.config
  rw [← act_stop_configured k l.config (e := e.configured k old) hc hw hs, hself] at hc'
  refine ⟨c', hc'.call, hc'.presses (Tick.act hb ha).grows hknown (fun hw' => ?_) hstages⟩
  have hcall := hc'.call
  rw [act_resume hc hw hs, runStage_of_requests? rfl, stopAll_eq] at hcall ⊢
  exact roused_afterStops hcall hw'

/-- A start that has nothing left to be stopped is applied next. -/
theorem Heading.presses_apply (h : Heading key k config diff e c) (hconfig : config.Sound) (hw : c.waiting = [])
    (hs : c.stages = [.apply k config diff]) :
    ∃ c', (e.act (.resume key)).call? key = some c' ∧ Presses D key k (e.act (.resume key)) c' := by
  have hact : e.act (.resume key) = (e.taken key e.agenda []).runStage key (.apply k config diff) :=
    act_resume h.call hw hs
  rw [hact]
  obtain ⟨c', hc', hroused⟩ := h.applies hconfig hw (applies_apply (e.taken key e.agenda []) key k config diff)
  exact ⟨c', hc'.call, .roused (.inr (.inr hroused)) hc'.waiting (by simp [hc'.stages])⟩

/-- A start that is not refused is applied next, or something is stopped first. -/
theorem Heading.presses_start (h : Heading key k config diff e c) (hr : Regular k e) (hw : c.waiting = [])
    (hs : c.stages = [.start k diff]) :
    ∃ c', (e.act (.resume key)).call? key = some c' ∧ Presses e.dueNow key k (e.act (.resume key)) c' := by
  have hact : e.act (.resume key) = (e.taken key e.agenda []).runStage key (.start k diff) := act_resume h.call hw hs
  rw [hact]
  obtain ⟨c', hc', hw', hroused, ⟨-, hs'⟩ | ⟨hl, hD⟩⟩ := h.begins hs hw (starts_start (e.taken key e.agenda []) key k diff)
  · exact ⟨c', hc'.call, .roused (.inr (.inr hroused)) hw' (by simp [hs'])⟩
  · exact ⟨c', hc'.call, .fresh (.inr (.inr hroused)) hw' hD (hr.lulls hl)⟩

/-- The start goes on. -/
theorem Presses.goesOn {agenda : List Action} (h : Presses D key k e c) (hacc : Accepts key k config diff e c)
    (hconfig : config.Sound) (hb : e.broken = false) (ha : e.agenda = .resume key :: agenda) :
    ∃ c', (Engine.act { e with agenda } (.resume key)).call? key = some c' ∧
      Presses D key k (Engine.act { e with agenda } (.resume key)) c' := by
  have hpop : Lulls e { e with agenda } := .pop ha
  have hres : Resumes { e with agenda } key (Engine.act { e with agenda } (.resume key)) := resumes_resume _ key
  rcases hacc with hh | happ
  · have hh' := hh.pop ha
    cases h with
    | ended h =>
      rw [hh.unended] at h
      cases h
    | @waits hw s given base js hc hg hk =>
      obtain ⟨c', ks, hc', hstages, -⟩ := hc.poll hw hg hk
      refine ⟨c', hc'.call, hc'.presses (hg.trans (Tick.act hb ha).grows) hk (fun hw' => ?_)
        (hstages.trans (hh.waits hw))⟩
      have hcall := hc'.call
      rw [act_pollAll agenda hh.call hw, pollAll_eq] at hcall ⊢
      exact roused_afterStops hcall hw'
    | fresh _ hw hD hr =>
      obtain ⟨l, hl, -⟩ := hh.level
      subst hD
      have hleads := hh.leads
      generalize hstages : c.stages = stages at hleads
      cases hleads with
      | asked => exact hh'.presses_start (hr.lulls hpop) hw hstages
      | stops ids removal _ => exact hr.presses_stop hl hb ha hh.call hw hstages
      | applies => exact hh'.presses_apply hconfig hw hstages
    | roused _ hw hs =>
      refine hh'.presses_apply hconfig hw ?_
      have hleads := hh.leads
      generalize hstages : c.stages = stages at hleads hs
      cases hleads with
      | asked => simp at hs
      | stops ids removal _ => simp at hs
      | applies => rfl
  · have happ' : Applied key k { e with agenda } c := happ.keeps (.of_level? hpop.level?) rfl
    obtain ⟨c', hc', -, hended⟩ := happ'.resumes hres
    exact ⟨c', hc'.call, .ended hended⟩

/-- When time has moved, the start waits as before. -/
theorem Presses.moveTo {moment : Nat} (h : Presses D key k e c) (ha : e.agenda = []) (hon : e.now ≤ moment)
    (ht : moment = e.now ∨ e.OnTime moment) : Presses D key k (e.moveTo moment) c := by
  have hm := moves_moveTo ha moment
  have hgrows : Grows e (e.moveTo moment) := Tick.grows (.time moment)
  -- time does not move on while the call is roused
  have hstays (hr : e.Roused key) : moment = e.now := ht.resolve_right fun ht => by
    unfold Roused at hr
    simp [ht.idle.1, ht.idle.2.1, ht.idle.2.2] at hr
  cases h with
  | ended h => exact .ended h
  | fresh h hw hD hr =>
    refine .fresh (hm.roused key h) hw ?_ (hr.lulls (.of_still (quiet_moveTo e moment).still ?_ ?_))
    · rw [← hD, dueNow, dueNow, closeTimeout_of_world hgrows.world, hm.now, hstays h]
    · exact fun a hp => .inl ((quiet_moveTo e moment).plan ▸ hp)
    · exact fun a hp _ => (quiet_moveTo e moment).plan ▸ hp
  | roused h hw hs => exact .roused (hm.roused key h) hw hs
  | waits hw h hg hk =>
    refine .waits hw (h.moveTo ha hon ?_ fun o ho => hg.known (hk o ho)) (hg.trans hgrows) hk
    rcases ht with rfl | ht
    · exact h.onTime
    · exact h.not_late hw ht

/-- When something else has happened, the start is as near to its end as before. -/
theorem Presses.heeds (h : Presses D key k e c) (hh : Heeds key (askedNodes c) e e') (hc : e'.call? key = some c)
    (hg : Grows e e') (hl : Regular k e → Regular k e' ∨ c.stages = []) : Presses D key k e' c := by
  cases h with
  | ended h => exact .ended h
  | fresh h hw hD hr =>
    rcases hl hr with hr' | hs
    · refine .fresh (hh.roused h) hw ?_ hr'
      rw [← hD, dueNow, dueNow, hh.now, closeTimeout_of_world hg.world]
    · exact .roused (hh.roused h) hw (by simp [hs])
  | roused h hw hs => exact .roused (hh.roused h) hw hs
  | waits hw h hg' hk => exact .waits hw (h.heeds hh hc hg fun o ho => hg'.known (hk o ho)) (hg'.trans hg) hk

theorem Presses.attends (h : Presses D key k e c) (hacc : Accepts key k config diff e c) :
    e.Attends key (askedNodes c) := by
  have hnone (hw : c.waiting = []) : e.Attends key (askedNodes c) := by simp [Attends, askedNodes, hw]
  cases h with
  | ended h =>
    rcases hacc with hh | happ
    · rw [hh.unended] at h
      cases h
    · exact hnone happ.waiting
  | fresh _ hw => exact hnone hw
  | roused _ hw => exact hnone hw
  | waits _ h => exact h.attends

theorem Accepts.call (h : Accepts key k config diff e c) : e.call? key = some c := h.elim (·.call) (·.call)

/-- No step makes a start fail, or leaves it without anything that takes it to its end. -/
theorem Presses.step (h : Presses D key k e c) (hacc : Accepts key k config diff e c) (hconfig : config.Sound)
    (hs : Solo e key) (ht : Lone e e') (hb : e.broken = false) (hu : e'.broken = false) :
    ∃ c', Accepts key k config diff e' c' ∧ Presses D key k e' c' := by
  obtain ⟨c', hacc'⟩ := hacc.advances hconfig (ht.advances hs).2
  suffices hgoal : ∃ c'', e'.call? key = some c'' ∧ Presses D key k e' c'' by
    obtain ⟨c'', hc'', hp⟩ := hgoal
    obtain rfl := Option.some.inj (hc''.symm.trans hacc'.call)
    exact ⟨c'', hacc', hp⟩
  rcases ht.kinds hs hu (h.attends hacc) with ⟨agenda, ha, rfl⟩ | ⟨moment, ha, rfl, hon, hm⟩ | ⟨hh, hc, hne | rfl⟩
  · exact h.goesOn hacc hconfig hb ha
  · exact ⟨c, (call?_of_still (quiet_moveTo e moment).still key).trans hacc.call, h.moveTo ha hon hm⟩
  · have hcall := hc.trans hacc.call
    refine ⟨c, hcall, h.heeds hh hcall ht.grows fun hr => ?_⟩
    rcases hacc with hacc | hacc
    · exact .inl (hr.lulls ((ht.advances hs).2.idle hne hacc.plan).toLulls)
    · exact .inr hacc.stages
  · exact ⟨c, hacc.call, h⟩

/-- A run of so many steps in which nothing is asked of the engine and nothing breaks. -/
structure LoneRun (run : Nat → Engine) (n : Nat) : Prop where
  step : ∀ i < n, Lone (run i) (run (i + 1))
  unbroken : ∀ i ≤ n, (run i).broken = false

/-- The engine does what is to be done next. Time moves when nothing is left to do, and to the next timer. -/
def goOn (e : Engine) : Engine :=
  match e.agenda, e.ready, e.putOff with
  | a :: agenda, _, _ => Engine.act { e with agenda } a
  | [], w :: _, _ => { e with ready := e.ready.filter (· != w), room := turnRoom }.runWaiter w
  | [], [], _ :: _ => e.wakePutOff
  | [], [], [] => e.moveTo (max e.now (e.nextDue?.getD e.now))

/-- What is to be done next is done in time, provided time does not move while anything is left to do. -/
theorem lone_goOn (hb : e.broken = false) (hc : e.agenda = [] ∧ e.ready = [] ∧ e.putOff = [] ∨ e.goOn.now = e.now) :
    Lone e e.goOn := by
  unfold goOn at *
  split at hc
  · rename_i a agenda ha
    exact .runs (.act hb ha) (.inl (hc.resolve_left (by simp [ha])))
  · rename_i w ready ha hr
    exact .runs (.turn hb ha (by simp [hr])) (.inl (hc.resolve_left (by simp [hr])))
  · rename_i w putOff ha _ hp
    exact .runs (.wake ha) (.inl (hc.resolve_left (by simp [hp])))
  · rename_i ha hr hp
    refine .runs (.time _) ?_
    rw [(moves_moveTo ha _).now]
    cases hd : e.nextDue? with
    | none => exact .inl (Nat.max_self _)
    | some due =>
      rw [Option.getD_some]
      by_cases hle : due ≤ e.now
      · exact .inl (Nat.max_eq_left hle)
      · rw [Nat.max_eq_right (Nat.le_of_not_le hle)]
        refine .inr (onTime_of_nextDue? ⟨ha, hr, hp⟩ (Nat.le_of_not_le hle) fun due' hd' => ?_)
        rw [hd] at hd'
        exact (Option.some.inj hd').le

/-- The whole run. -/
theorem Presses.run {run : Nat → Engine} {n i : Nat} (h : Presses D key k (run 0) c)
    (hacc : Accepts key k config diff (run 0) c) (hconfig : config.Sound) (hs : Solo (run 0) key)
    (hrun : LoneRun run n) (hi : i ≤ n) :
    ∃ c', Accepts key k config diff (run i) c' ∧ Presses D key k (run i) c' := by
  have hall : Solo (run i) key ∧ ∃ c', Accepts key k config diff (run i) c' ∧ Presses D key k (run i) c' := by
    induction i with
    | zero => exact ⟨hs, c, hacc, h⟩
    | succ i ih =>
      have hin := Nat.le_of_succ_le hi
      obtain ⟨hsolo, c', hacc', hp⟩ := ih hin
      have hstep := hrun.step i hi
      exact ⟨(hstep.advances hsolo).1, hp.step hacc' hconfig hsolo hstep (hrun.unbroken i hin) (hrun.unbroken _ hi)⟩
  exact hall.2

/-- A start is not refused later, however time passes. -/
theorem Accepts.reach (h : Accepts key k config diff e c) (hconfig : config.Sound) (hs : Solo e key) (hr : Reach e e') :
    ∃ c', Accepts key k config diff e' c' := by
  have hall : Solo e' key ∧ ∃ c', Accepts key k config diff e' c' :=
    hr.invariant (P := fun s => Solo s key ∧ ∃ c', Accepts key k config diff s c')
      (fun _ _ ⟨hs, _, hacc⟩ ht => ⟨(hs.tick ht).1, hacc.advances hconfig (hs.tick ht).2⟩) ⟨hs, c, h⟩
  exact hall.2

theorem Accepts.fault (h : Accepts key k config diff e c) : c.fault = none := h.elim (·.fault) (·.fault)

/-- A start that has ended has been applied. -/
theorem Accepts.started (h : Accepts key k config diff e c) (hended : c.ended.isSome = true) :
    ∃ l, e.level? k = some l ∧ l.phase = .started := by
  rcases h with h | h
  · rw [h.unended] at hended
    cases hended
  · exact h.level

/-- A start that has not ended is the next to go on, or it waits for a timer that goes off within the time of all
closes. -/
theorem Presses.coming (h : Presses D key k e c) : c.ended.isSome = true ∨ e.Roused key ∨
    ∃ due, e.nextDue? = some due ∧ e.now < D ∧ due ≤ D := by
  cases h with
  | ended h => exact .inl h
  | fresh h => exact .inr (.inl h)
  | roused h => exact .inr (.inl h)
  | waits hw h =>
    obtain ⟨a, ha⟩ := List.exists_mem_of_ne_nil _ (h.alive hw)
    rcases h.idle a ha with hr | hwait
    · exact .inr (.inl hr)
    have hdue : a.2 = D := (h.underway.awaits a ha).onTime.resolve_right (by simp [hwait.1])
    have htimer := List.mem_filter.mpr ⟨(h.underway.awaits a ha).timer hwait.2, h.isAwaited ha⟩
    have hmem : a.2 ∈ (e.timers.filter e.isAwaited).map (·.due) := List.mem_map_of_mem htimer
    cases hmin : ((e.timers.filter e.isAwaited).map (·.due)).min? with
    | none =>
      rw [List.min?_eq_none_iff.mp hmin] at hmem
      cases hmem
    | some due =>
      refine .inr (.inr ⟨due, hmin, hdue ▸ hwait.2, hdue ▸ (List.min?_eq_some_iff.mp hmin).2 _ hmem⟩)

/-! ## The beginning -/

theorem Reachable.regular (h : Reachable e) (hl : e.level? k = some l) (config : FlowConfig) :
    Regular k (e.configured k config) := by
  refine ⟨⟨l.config, ?_⟩, fun j u i hi => ?_, fun j u i n hi hn => ?_⟩
  · rw [configured_configured, configured_self hl]
    exact h.layout.laid
  · rw [activeKey?_configured]
    exact h.books.1.housed j u i ((instance?_configured k config j u).symm.trans hi)
  · exact h.manned j u i n ((instance?_configured k config j u).symm.trans hi)
      ((activeKey?_configured k config j u).symm.trans hn)

theorem Regular.begin (hr : Regular k e) (stages : List Stage) : Regular k (e.begin stages).1 := by
  refine hr.of_eq ?_ ?_ ?_ ?_ <;> rw [untouched_begin e stages]
  rfl

/-- A start that is not refused when it begins. -/
theorem heading_begin (hr : Regular k e) (hrest : AtRest e) (hk : KeysBelow e) (hl : e.level? k = some l)
    (hd : ¬l.Refuses diff) : Heading e.nextCall k l.config diff (e.begin [.start k diff]).1
      (.make [.start k diff] e.now) := by
  have hcall : (e.begin [.start k diff]).1.call? e.nextCall = some (.make [.start k diff] e.now) := by
    rw [call?_begin hk, if_pos rfl]
  have hlevel (j : LevelKey) : (e.begin [.start k diff]).1.level? j = e.level? j := level?_begin e _ j
  refine ⟨hcall, rfl, rfl, .asked, absurd rfl, ⟨l, (hlevel k).trans hl, rfl⟩, fun _ l' hl' => ?_, (hr.begin _).apart,
    fun a ha => ?_⟩
  · rw [hlevel, hl] at hl'
    exact Option.some.inj hl' ▸ hd
  · have hplan : (e.begin [.start k diff]).1.plan = [] := by
      rw [Engine.plan, untouched_begin, hrest.idle]
      rfl
    rw [hplan] at ha
    cases ha

theorem accepts_begin (hr : Regular k e) (hrest : AtRest e) (hk : KeysBelow e) (hl : e.level? k = some l)
    (hd : ¬l.Refuses diff) : ∃ c, Accepts e.nextCall k l.config diff (e.begin [.start k diff]).1 c ∧
      Presses e.dueNow e.nextCall k (e.begin [.start k diff]).1 c := by
  refine ⟨_, .inl (heading_begin hr hrest hk hl hd), .fresh (.inl (ready_begin e _)) rfl ?_ (hr.begin _)⟩
  rw [dueNow, dueNow, untouched_begin]

/-! ## Refused starts -/

/-- A start that the level refuses is refused by the stage, whatever the stage is run in. -/
theorem start_refused (key : CallKey) (hl : e.level? k = some l) (hd : l.Refuses diff) :
    ∃ fault, ∀ s : Engine, s.levels = e.levels → s.runStage key (.start k diff) = s.refuse key fault := by
  obtain ⟨fault, hc⟩ := exists_checkStart_error.mpr hd
  refine ⟨fault, fun s hs => ?_⟩
  have hl' : s.level? k = some l := by rw [level?, hs]; exact hl
  change s.start key k diff = _
  unfold start
  rw [hl']
  dsimp only
  rw [hc]

/-- No hook is called on the way to a refusal. -/
theorem traced_refused (hb : e.broken = false) (ha : e.agenda = []) (hk : KeysBelow e) (hl : e.level? k = some l)
    (hd : l.Refuses diff) :
    (∃ c fault, (e.complete [.start k diff]).1.call? e.nextCall = some c ∧ c.fault = some fault) ∧
      Untouched e (e.complete [.start k diff]).1 ∧ Traced e [] (e.complete [.start k diff]).1 := by
  obtain ⟨fault, hstage⟩ := start_refused e.nextCall hl hd
  obtain ⟨hu, ⟨c, hc, hf⟩, s, hs, hagenda, hbroken, hcall, hlast⟩ := complete_refused hb ha hk hstage
  refine ⟨⟨c, fault, hc, hf⟩, hu, ?_⟩
  have hbegun := (untouched_begin e [.start k diff]).trans (untouched_wakePutOff _)
  have hidle : (e.begin [.start k diff]).1.agenda = [] := by rw [untouched_begin e, ha]
  have hput : (e.begin [.start k diff]).1.wakePutOff.agenda = [] := by rw [hbegun, ha]
  have hturnAgenda : ((e.begin [.start k diff]).1.wakePutOff.turnBegun e.nextCall).agenda = [.resume e.nextCall] := by
    rw [turnBegun, push, hput]
    rfl
  have hturnCall : ((e.begin [.start k diff]).1.wakePutOff.turnBegun e.nextCall).call? e.nextCall =
      some (.make [.start k diff] e.now) := by
    have hcall := call?_wakePutOff (e.begin [.start k diff]).1 e.nextCall
    rw [call?_begin hk, if_pos rfl] at hcall
    exact hcall
  have hready := ready_wakePutOff _ (ready_begin e [.start k diff])
  have hwoken : Traced e [] (e.begin [.start k diff]).1.wakePutOff :=
    (Traced.refl.input ha (.call (.start k diff))).tick (.wake hidle) (.between hidle)
  have hturn : Traced e [] ((e.begin [.start k diff]).1.wakePutOff.turnBegun e.nextCall) :=
    hwoken.tick (.turn (by rw [hbegun, hb]) hput hready) (.between hput)
  have hasked : Traced e [] s := by
    subst hs
    exact hturn.tick (.act (by rw [turnBegun, push, hbegun, hb]) hturnAgenda)
      (.stage hturnAgenda hturnCall rfl rfl rfl rfl)
  rw [hlast]
  exact hasked.tick (.act hbroken hagenda) (.rests hagenda (fun c hc => by cases hcall.symm.trans hc; exact ⟨rfl, rfl⟩) rfl)

end Engine

namespace Session
open Engine

variable {s : Session} {e : Engine} {k : LevelKey} {l : Level}

/-- Starts happen as a whole or not at all. Whatever configuration a flow has been given, and whatever the diff names, a
start is refused exactly when the flow has no order to start in, is being stopped, or has been started and no diff is
given. What is refused leaves everything as it was, and no hook is called. Any other start does not fail at any moment of
any run in which nothing else is asked of the engine, however its steps are interleaved with those of nodes and timers;
it is always the next to go on, or waits for a timer within the time of all closes; and when it has ended, the flow has
been started. -/
theorem start_is_atomic (h : Reachable e) (hl : e.level? k = some l) {config : FlowConfig}
    (hs : s.engine = e.configured k config) (hb : e.broken = false) (ha : e.agenda = []) (diff : Option Diff) :
    (({ l with config } : Level).Refuses diff → (∃ fault, (s.start k diff).1 = .error fault) ∧
      Untouched s.engine (s.start k diff).2.engine ∧ Traced s.engine [] (s.start k diff).2.engine) ∧
    (AtRest e → ¬({ l with config } : Level).Refuses diff → (s.start k diff).1 = .ok () ∧
      ((s.start k diff).2.engine.hasEnded s.engine.nextCall = true →
        ∃ l', (s.start k diff).2.engine.level? k = some l' ∧ l'.phase = .started) ∧
      ∀ (run : Nat → Engine) (n : Nat), run 0 = (s.engine.begin [.start k diff]).1 → LoneRun run n → ∀ i ≤ n,
        ∃ c, (run i).call? s.engine.nextCall = some c ∧ c.fault = none ∧
          (c.ended.isSome = true → ∃ l', (run i).level? k = some l' ∧ l'.phase = .started) ∧
          (c.ended.isSome = true ∨ (run i).Roused s.engine.nextCall ∨ ∃ due, (run i).nextDue? = some due ∧
            (run i).now < s.engine.now + s.engine.closeTimeout ∧ due ≤ s.engine.now + s.engine.closeTimeout)) := by
  have hlevel : s.engine.level? k = some { l with config } := by
    rw [hs, level?_configured, hl, Option.map_some, if_pos rfl]
  have hkeys : KeysBelow s.engine := hs ▸ h.keysBelow
  have hstart : s.start k diff = (outcome (((s.engine.complete [.start k diff]).1.call? s.engine.nextCall).getD
    (.make [] (s.engine.complete [.start k diff]).1.now)), { s with engine := (s.engine.complete [.start k diff]).1 }) := rfl
  rw [hstart]
  refine ⟨fun hd => ?_, fun hrest hd => ?_⟩
  · obtain ⟨⟨c, fault, hc, hf⟩, hu, ht⟩ := traced_refused (hs ▸ hb) (hs ▸ ha) hkeys hlevel hd
    refine ⟨⟨fault, ?_⟩, hu, ht⟩
    rw [hc, Option.getD_some, outcome, hf]
  · have hrest' : AtRest s.engine := hs ▸ ⟨hrest.unbroken, hrest.idle, hrest.calls⟩
    have hregular : Regular k s.engine := hs ▸ h.regular hl config
    have hsound : config.Sound := sound_of_not_refuses hd
    have hsolo := hrest'.solo hkeys [.start k diff]
    obtain ⟨c, hacc, hp⟩ := accepts_begin hregular hrest' hkeys hlevel hd
    obtain ⟨c', hacc'⟩ := hacc.reach hsound hsolo (reach_complete s.engine [.start k diff])
    refine ⟨?_, fun hended => hacc'.started ?_, fun run n h0 hrun i hi => ?_⟩
    · rw [hacc'.call, Option.getD_some, outcome, hacc'.fault]
    · unfold hasEnded at hended
      rw [hacc'.call] at hended
      exact hended
    · rw [← h0] at hacc hp hsolo
      obtain ⟨c', hacc', hp'⟩ := hp.run hacc hsound hsolo hrun hi
      exact ⟨c', hacc'.call, hacc'.fault, hacc'.started, hp'.coming⟩

/-- What the tab is to be later: the node that does not answer is gone, and another one comes. -/
def hangNext : FlowConfig := firstTab [
  .obj [("id", .str "t"), ("type", .str "tab")],
  .obj [("id", .str "a"), ("type", .str "test"), ("z", .str "t")],
  .obj [("id", .str "b"), ("type", .str "test"), ("z", .str "t")]]

def hangUpdated : Session := { hangFlow with engine := hangFlow.engine.configured 0 hangNext }

/-- A diff made by hand, which also names a node that has never been there. -/
def hangDiff : Diff := ⟨["b"], [], ["h", "nobody"], ["nobody"], []⟩

/-- The start, step by step. -/
def hangStart (i : Nat) : Engine := goOn^[i] (hangUpdated.engine.begin [.start 0 (some hangDiff)]).1

theorem hangStart_run : (hangFlow.engine.agenda = [] ∧ hangFlow.engine.broken = false ∧
      hangFlow.engine.calls.all (fun entry => entry.2.over) = true) ∧
    ((hangFlow.engine.level? 0).map fun l => (l.phase, (checkStart { l with config := hangNext } (some hangDiff)).isOk)) =
      some (.started, true) ∧
    (∀ i ≤ 14, (hangStart i).broken = false) ∧
    (∀ i < 14, i = 3 ∨ (hangStart i).goOn.now = (hangStart i).now) ∧
    ((hangStart 3).agenda = [] ∧ (hangStart 3).ready = [] ∧ (hangStart 3).putOff = []) ∧
    (hangStart 14).now = 20 ∧ (hangStart 14).hasEnded hangUpdated.engine.nextCall = true := by
  decide +kernel

theorem loneRun_hangStart : LoneRun hangStart 14 := by
  obtain ⟨-, -, hb, hnow, hidle, -⟩ := hangStart_run
  refine ⟨fun i hi => ?_, hb⟩
  have hnext : hangStart (i + 1) = (hangStart i).goOn := Function.iterate_succ_apply' goOn i _
  rw [hnext]
  refine lone_goOn (hb i (Nat.le_of_lt hi)) ((hnow i hi).imp_left ?_)
  rintro rfl
  exact hidle

/-- Without a diff the tab is not started again, and nothing is touched. With one the start waits for the node that does
not answer, and then everything is as the new configuration says. -/
theorem start_waits_for_hanging_node :
    (∃ fault, (hangUpdated.start 0 none).1 = .error fault) ∧
      Untouched hangUpdated.engine (hangUpdated.start 0 none).2.engine ∧
    (hangUpdated.start 0 (some hangDiff)).1 = .ok () ∧ (hangStart 14).now = 20 ∧
    ∃ c l, (hangStart 14).call? hangUpdated.engine.nextCall = some c ∧ c.fault = none ∧ c.ended.isSome = true ∧
      (hangStart 14).level? 0 = some l ∧ l.phase = .started := by
  obtain ⟨⟨ha, hb, hcalls⟩, hlevel, -, -, -, hnow, hended⟩ := hangStart_run
  obtain ⟨l, hl, hcheck⟩ := Option.map_eq_some_iff.mp hlevel
  obtain ⟨hp, hok⟩ := Prod.mk.inj hcheck
  have hrest : AtRest hangFlow.engine := ⟨hb, ha, by simpa using hcalls⟩
  have hall := start_is_atomic reachable_hangFlow hl (s := hangUpdated) rfl hb ha
  obtain ⟨hfault, hu, -⟩ := (hall none).1 (.inr (.inr ⟨hp, rfl⟩))
  have hd : ¬({ l with config := hangNext } : Level).Refuses (some hangDiff) := not_refuses_of_isOk hok
  obtain ⟨hresult, -, hrun⟩ := (hall (some hangDiff)).2 hrest hd
  obtain ⟨c, hc, hf, hstarted, -⟩ := hrun hangStart 14 rfl loneRun_hangStart 14 (Nat.le_refl 14)
  have hover : c.ended.isSome = true := by
    rw [hasEnded, hc] at hended
    exact hended
  obtain ⟨l', hl', hphase⟩ := hstarted hover
  exact ⟨hfault, hu, hresult, hnow, c, l', hc, hf, hover, hl', hphase⟩

end Session
end Flowgraph
