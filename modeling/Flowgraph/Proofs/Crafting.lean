import Flowgraph.Proofs.Listening
/-! What stands behind a node is what its record says: a behaviour that the registry has made of it, a part of the engine
itself, or an instance. -/
namespace Flowgraph.Engine

variable {e e' : Engine} {k : LevelKey} {n : NodeKey} {key : CallKey}

/-- The type of a usage node is not built in. -/
theorem builtIn?_usage {r : Record} {id : String} (h : r.templateId? = some id) : builtIn? r.type = none := by
  have hmarked : "subflow:".toList.isPrefixOf r.type.toList = true := by
    by_contra hno
    unfold Record.templateId? at h
    dsimp only at h
    rw [if_neg hno] at h
    cases h
  have hplain : ∀ type ∈ [catchType, statusType, completeType, inputType, statusSinkType, completeSinkType],
      "subflow:".toList.isPrefixOf type.toList = false := by decide
  have hne : ∀ type ∈ [catchType, statusType, completeType, inputType, statusSinkType, completeSinkType],
      r.type ≠ type := by
    rintro type htype rfl
    rw [hplain _ htype] at hmarked
    cases hmarked
  have hreceiver : isReceiverType r.type = false := by
    simp only [isReceiverType, Bool.or_eq_false_iff, beq_eq_false_iff_ne]
    exact ⟨⟨hne catchType (by simp), hne statusType (by simp)⟩, hne completeType (by simp)⟩
  have hinput : (r.type == inputType) = false := beq_eq_false_iff_ne.mpr (hne inputType (by simp))
  have hstatus : (r.type == statusSinkType) = false := beq_eq_false_iff_ne.mpr (hne statusSinkType (by simp))
  have hcomplete : (r.type == completeSinkType) = false := beq_eq_false_iff_ne.mpr (hne completeSinkType (by simp))
  rw [builtIn?, hreceiver, hinput, hstatus, hcomplete]
  rfl

/-- What can stand behind a node of this record. -/
inductive Crafted (kinds : Registry) (r : Record) : Part → Prop
  | ordinary {b : Behaviour} {notes : List Note} (hu : r.templateId? = none) (hb : builtIn? r.type = none)
      (hc : kinds.create r = .ok (b, notes)) : Crafted kinds r (.ordinary b)
  | builtIn {part : Part} (hu : r.templateId? = none) (hb : builtIn? r.type = some part) : Crafted kinds r part
  | standIn {inst : LevelKey} {id : String} (hu : r.templateId? = some id) : Crafted kinds r (.standIn inst)

/-- What is built in for a type stands behind the nodes of the type. -/
theorem Crafted.part_eq {kinds : Registry} {r : Record} {part p : Part} (h : Crafted kinds r part)
    (hr : builtIn? r.type = some p) : part = p := by
  cases h with
  | ordinary _ hb =>
    rw [hr] at hb
    cases hb
  | builtIn _ hb => exact Option.some.inj (hb.symm.trans hr)
  | standIn hu =>
    rw [builtIn?_usage hu] at hr
    cases hr

theorem Behind.crafted {r : Record} {part : Part} {notes : List Note} (h : Behind e r part notes)
    (hu : r.templateId? = none) : Crafted e.registry r part := by
  cases h with
  | builtIn hb => exact .builtIn hu hb
  | ordinary hb hc => exact .ordinary hu hb hc

/-- All nodes are crafted of their records, and usage nodes are about to be entered. -/
structure Crafts (e : Engine) : Prop where
  nodes : ∀ n node, e.node? n = some node → Crafted e.registry node.record node.part
  installs : ∀ k r i, .install k r i ∈ e.plan → ∃ id, r.templateId? = some id

theorem Crafts.of_face (h : Crafts e) (hk : e'.registry = e.registry)
    (hf : ∀ n, (e'.node? n).map Node.face = (e.node? n).map Node.face)
    (hi : ∀ k r i, .install k r i ∈ e'.plan → .install k r i ∈ e.plan ∨ ∃ id, r.templateId? = some id) :
    Crafts e' := by
  refine ⟨fun n node hn => ?_, fun k r i hm => ?_⟩
  · have hface := hf n
    rw [hn] at hface
    obtain ⟨node', hn', he⟩ := Option.map_eq_some_iff.mp hface.symm
    obtain ⟨hrec, -, hpart⟩ := Prod.mk.inj he |>.imp_right Prod.mk.inj
    rw [← hrec, ← hpart, hk]
    exact h.nodes n node' hn'
  · exact (hi k r i hm).elim (h.installs k r i) id

theorem crafts_enter (h : Crafts e) {r : Record} {part : Part} (hr : Crafted e.registry r part) (k : LevelKey) :
    Crafts (e.enter k r part) := by
  have hk : (e.enter k r part).registry = e.registry := by
    unfold enter
    cases part <;> rfl
  refine ⟨fun n node hn => ?_, fun k' r' i hm => h.installs k' r' i (plan_enter e k r part ▸ hm)⟩
  rw [hk]
  rw [node?_enter] at hn
  split at hn
  · cases hn
    exact hr
  · exact h.nodes n node hn

theorem registry_of_grows (h : Grows e e') : e'.registry = e.registry := congrArg (·.1) h.world

theorem Creates.crafts {r : Record} {templates : Templates} (hc : Creates e k r templates e') (h : Crafts e) :
    Crafts e' := by
  have hkinds : e'.registry = e.registry := registry_of_grows hc.grows
  have hstands (hs : Stands e e') (hp : e'.plan = e.plan) : Crafts e' :=
    h.of_face hkinds hs.face fun k r i hm => .inl (hp ▸ hm)
  cases hc with
  | present => exact h
  | noTemplate => exact hstands (.failCreation _ _ _ _) (plan_failCreation _ _ _ _)
  | refused => exact hstands (.failCreation _ _ _ _) (plan_failCreation _ _ _ _)
  | @made part notes hn hu hb =>
    have hnote : Crafts (e.note notes) := h.of_face rfl (fun _ => rfl) fun _ _ _ hm => .inl hm
    exact crafts_enter hnote (hb.crafted hu) k
  | @usage id t e' hn hu ht ho =>
    cases ho with
    | nowhere => exact h
    | breaks => exact h.of_face rfl (fun _ => rfl) fun _ _ _ hm => by cases hm
    | collapses =>
      refine h.of_face hkinds ((Stands.withInstance _ _ _ _ _).trans (.failCreation _ _ _ _)).face fun k r i hm => ?_
      rw [plan_failCreation] at hm
      exact .inl hm
    | @opens l nodes order hl hx hr =>
      refine h.of_face rfl (fun _ => rfl) fun k' r' i hm => ?_
      unfold opened at hm
      rw [plan_activated, plan_push] at hm
      rcases List.mem_append.mp hm with hm | hm
      · rcases List.mem_append.mp hm with hm | hm
        · obtain ⟨r, -, hr⟩ := mem_creations hm
          cases hr
        · cases List.mem_singleton.mp hm
      · rcases List.mem_append.mp hm with hm | hm
        · cases List.mem_singleton.mp (List.mem_filter.mp hm).1
          exact .inr ⟨id, hu⟩
        · exact .inl hm

/-- Going on with a call makes no node. -/
theorem Resumes.face (h : Resumes e key e') (hp : e.plan = []) :
    (∀ n, (e'.node? n).map Node.face = (e.node? n).map Node.face) ∧ NoInstalls e' := by
  have hnone {s : Engine} (hs : s.plan = []) : NoInstalls s := by
    intro a ha
    rw [hs] at ha
    cases ha
  have hstops {s e₁ e' : Engine} {stops : List Stopping} (hsp : s.plan = []) (hs : Stops s e₁)
      (hpr : Proceeds e₁ key stops e') : (∀ n, (e'.node? n).map Node.face = (s.node? n).map Node.face) ∧ NoInstalls e' :=
    ⟨fun n => (hpr.stands.2 n).trans (StopsWithin.face hs n), hpr.noInstalls (hs.plan.trans hsp)⟩
  cases h with
  | unknown => exact ⟨fun _ => rfl, hnone hp⟩
  | ends => exact ⟨fun _ => rfl, hnone hp⟩
  | @stage c stage rest hc hw hs =>
    cases hrq : stage.requests? (e.modifyCall key fun c => { c with stages := rest }) with
    | some requests =>
      rw [runStage_of_requests? hrq, stopAll_eq]
      exact hstops (s := e.modifyCall key fun c => { c with stages := rest }) hp
        (stops_beginStops key (e.modifyCall key fun c => { c with stages := rest }, []) requests)
        (proceeds_afterStops _ _ _)
    | none =>
      obtain ⟨hst, hn⟩ := stands_runStage (e := e.modifyCall key fun c => { c with stages := rest }) hp key hrq
      exact ⟨hst.face, hn⟩
  | waits hc hw => exact hstops hp (stops_pollStops key (e, []) _) (proceeds_afterStops _ _ _)

theorem registry_of_still (h : e'.still = e.still) : e'.registry = e.registry := by
  have hr := congrArg Engine.registry h
  exact hr

theorem Reachable.crafted (h : Reachable e) : Crafts e := by
  refine h.invariant (P := Crafts) (fun r o s v t => ?_) (fun e e' hr h ht => ?_) fun e e' hr h ha hi => ?_
  · exact ⟨fun n node hn => by simp [node?, Engine.make] at hn, fun _ _ _ hm => by simp [plan, Engine.make] at hm⟩
  · rcases ht.kinds with ⟨hs, hp⟩ | ⟨key, -, hs, ha⟩ | ⟨a, rest, -, hq, ha, rfl⟩
    · exact h.of_face (registry_of_still hs) (face_of_still hs) fun k r i hm => .inl (hp ▸ hm)
    · refine h.of_face (registry_of_still hs) (face_of_still hs) fun k r i hm => ?_
      have hm := (List.mem_filter.mp hm).1
      rw [ha] at hm
      cases List.mem_singleton.mp hm
    · have hplan := plan_pop ha hq
      have hpop : Crafts { e with agenda := rest } :=
        h.of_face rfl (fun _ => rfl) fun k r i hm => .inl (hplan ▸ List.mem_cons_of_mem _ hm)
      cases a with
      | create k r templates => exact (creates_create { e with agenda := rest } k r templates).crafts hpop
      | install k r inst =>
        obtain ⟨id, hu⟩ := h.installs k r inst (hplan ▸ List.mem_cons_self)
        have hm : Crafts (({ e with agenda := rest } : Engine).modifyLevel k
            fun l => { l with instances := l.instances.insert r.id inst }) :=
          hpop.of_face rfl (fun _ => rfl) fun _ _ _ hm => .inl hm
        exact crafts_enter hm (.standIn hu) k
      | refresh k =>
        have hst : Stops { e with agenda := rest } (({ e with agenda := rest } : Engine).refresh k) := stops_refresh _ k
        exact hpop.of_face (registry_of_grows hst.grows) (StopsWithin.face hst) fun _ _ _ hm => .inl (hst.plan ▸ hm)
      | resume key =>
        have ho := hr.accounted.orderly
        rw [hplan] at ho
        have hres := resumes_resume { e with agenda := rest } key
        obtain ⟨hf, hn⟩ := hres.face ho
        refine hpop.of_face (registry_of_grows hres.grows) hf fun k r i hm => ?_
        cases hn _ hm
      | _ => cases hq
  · have hsame (hf : ∀ n, (e'.node? n).map Node.face = (e.node? n).map Node.face) (hp : e'.plan = e.plan) :
        Crafts e' := h.of_face (registry_of_grows hi.grows) hf fun _ _ _ hm => .inl (hp ▸ hm)
    cases hi with
    | @call stages ho =>
      have hplan : (e.begin stages).1.plan = _ := (quiet_wake _ (.call e.nextCall)).plan
      exact hsame (fun n => by rw [node?_begin]) hplan
    | quiet hq => exact hsame (face_of_still hq.still) hq.plan
    | keep => exact hsame (fun _ => rfl) rfl
    | flow => exact hsame (fun _ => rfl) rfl
    | update => exact hsame (fun _ => rfl) rfl

end Flowgraph.Engine
