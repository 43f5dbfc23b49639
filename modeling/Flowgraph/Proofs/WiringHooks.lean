import Flowgraph.Proofs.Protocol
/-! The hooks that the application of a configuration calls on nodes that are wired anew. A node of the flow that the
diff names is called once; a node of an instance is called at most once, and only if its usage node is named. -/
namespace Flowgraph

variable {n m : NodeKey} {calls : List HookCall}

theorem hooksOf_eq_nil (h : ∀ c ∈ calls, c.node ≠ n) : hooksOf n calls = [] := by
  rw [hooksOf, List.filter_eq_nil_iff.mpr fun c hc => by simpa using h c hc, List.map_nil]

theorem hooksOf_singleton (m n : NodeKey) (hook : Hook) : hooksOf n [⟨m, hook⟩] = if m = n then [hook] else [] := by
  by_cases h : m = n <;> simp [hooksOf, h]

namespace Engine

variable {e e' s : Engine} {i j k inst : LevelKey} {id u : NodeId} {config : FlowConfig} {outer : Wires}
  {ids : List NodeId} {b : Binding}

/-! ## What the wiring of an instance calls -/

theorem mem_rewireNodeCalls {r : Record} {c : HookCall} (hc : c ∈ e.rewireNodeCalls inst r) :
    c.hook = .rewire ∧ e.activeKey? inst r.id = some c.node := by
  unfold rewireNodeCalls at hc
  split at hc
  · cases hc
  · rename_i n hn
    split at hc
    · cases hc
    · obtain rfl := List.mem_singleton.mp hc
      exact ⟨rfl, hn⟩

/-- All that is called are active nodes of its level. -/
theorem mem_rewireInstanceCalls {c : HookCall} (hc : c ∈ e.rewireInstanceCalls inst outer) :
    c.hook = .rewire ∧ ∃ id, e.activeKey? inst id = some c.node := by
  unfold rewireInstanceCalls at hc
  split at hc
  · cases hc
  · refine forall_callsAlong (P := fun s => ∀ id, s.activeKey? inst id = e.activeKey? inst id)
      (Q := fun c => c.hook = .rewire ∧ ∃ id, e.activeKey? inst id = some c.node)
      (fun s r hs id => ((rewires_rewireNode inst s r).entries inst id).1.trans (hs id))
      (fun s r hs c hc => ?_) _ (fun _ => rfl) c hc
    obtain ⟨hhook, hn⟩ := mem_rewireNodeCalls hc
    exact ⟨hhook, r.id, (hs r.id).symm.trans hn⟩

/-- A node that is not called keeps its wiring. -/
structure Bypassed (n : NodeKey) (e s : Engine) (calls : List HookCall) : Prop where
  hooks : hooksOf n calls = []
  wiring : (s.node? n).map (·.dispatch) = (e.node? n).map (·.dispatch)

theorem Bypassed.refl (n : NodeKey) (e : Engine) : Bypassed n e e [] := ⟨rfl, rfl⟩

theorem Bypassed.append {K : List HookCall} (h : Bypassed n e s calls) (h' : Bypassed n s e' K) :
    Bypassed n e e' (calls ++ K) :=
  ⟨by rw [hooksOf_append, h.hooks, h'.hooks, List.append_nil], h'.wiring.trans h.wiring⟩

theorem wiring_updateWires_of_ne (e : Engine) (hne : m ≠ n) (wires : Wires) :
    ((e.updateWires m wires).node? n).map (·.dispatch) = (e.node? n).map (·.dispatch) := by
  rw [node?_updateWires, if_neg hne]

/-- A node is wired anew for its own record alone. -/
theorem passes_rewireNode (hp : Placed e) (hn : e.activeKey? inst id = some n) {r : Record} (hr : r.id ≠ id) :
    Bypassed n e (e.rewireNode inst r) (e.rewireNodeCalls inst r) := by
  refine ⟨hooksOf_eq_nil fun c hc hcn => ?_, ?_⟩
  · obtain ⟨-, hn'⟩ := mem_rewireNodeCalls hc
    exact hr (hp.inj (hcn ▸ hn') hn).2
  · unfold rewireNode
    split
    · rfl
    · rename_i m hm
      split
      · rfl
      · refine wiring_updateWires_of_ne e ?_ _
        rintro rfl
        exact hr (hp.inj hm hn).2

/-- Its own record leaves a node alone, or has it wired anew. -/
theorem passes_or_wired (hn : e.activeKey? inst id = some n) {r : Record} (hr : r.id = id) :
    Bypassed n e (e.rewireNode inst r) (e.rewireNodeCalls inst r) ∨ hooksOf n (e.rewireNodeCalls inst r) = [.rewire] := by
  unfold rewireNode rewireNodeCalls
  rw [hr, hn]
  dsimp only
  split
  · exact .inl (.refl n e)
  · exact .inr ((hooksOf_singleton n n .rewire).trans (if_pos rfl))

/-- Each node is called at most once. -/
theorem passes_rewireNodes (hp : Placed e) (hn : e.activeKey? inst id = some n) {rs : List Record}
    (hd : (rs.map (·.id)).Nodup) :
    Bypassed n e (rs.foldl (rewireNode inst) e) (callsAlong (rewireNode inst) (rewireNodeCalls inst) e rs) ∨
      hooksOf n (callsAlong (rewireNode inst) (rewireNodeCalls inst) e rs) = [.rewire] := by
  have hrest {s : Engine} (hs : Placed s) (hns : s.activeKey? inst id = some n) {rs : List Record}
      (hr : ∀ r ∈ rs, r.id ≠ id) :
      Bypassed n s (rs.foldl (rewireNode inst) s) (callsAlong (rewireNode inst) (rewireNodeCalls inst) s rs) := by
    induction rs generalizing s with
    | nil => exact .refl n s
    | cons r rs ih =>
      have hstep := rewires_rewireNode inst s r
      exact (passes_rewireNode hs hns (hr r List.mem_cons_self)).append (ih (hs.rewires hstep)
        ((Rewires.entries hstep inst id).1.trans hns) fun r' hm => hr r' (List.mem_cons_of_mem _ hm))
  induction rs generalizing e with
  | nil => exact .inl (.refl n e)
  | cons r rs ih =>
    obtain ⟨hnot, hd⟩ := List.nodup_cons.mp hd
    have hstep := rewires_rewireNode inst e r
    have hn' : (e.rewireNode inst r).activeKey? inst id = some n := (Rewires.entries hstep inst id).1.trans hn
    by_cases hr : r.id = id
    · have hpass := hrest (hp.rewires hstep) hn' fun r' hm he => hnot (List.mem_map.mpr ⟨r', hm, he.trans hr.symm⟩)
      refine (passes_or_wired hn hr).imp (fun h => h.append hpass) fun h => ?_
      rw [callsAlong, hooksOf_append, h, hpass.hooks]
      rfl
    · have hpass := passes_rewireNode hp hn hr
      refine (ih (hp.rewires hstep) hn' hd).imp (fun h => hpass.append h) fun h => ?_
      rw [callsAlong, hooksOf_append, hpass.hooks, h]
      rfl

theorem passes_rewireInstance (hp : Placed e) (hb : e.binding? inst = some b) (hm : b.Made)
    (hn : e.activeKey? inst id = some n) (outer : Wires) :
    Bypassed n e (e.rewireInstance inst outer) (e.rewireInstanceCalls inst outer) ∨
      hooksOf n (e.rewireInstanceCalls inst outer) = [.rewire] := by
  unfold rewireInstanceCalls
  rw [hb, Option.bind_some]
  cases hx : b.expand? outer with
  | none =>
    unfold rewireInstance
    rw [hb]
    dsimp only
    rw [hx]
    exact .inl ⟨rfl, rfl⟩
  | some nodes =>
    rw [rewireInstance_eq hb hx]
    have hd : (nodes.map (·.id)).Nodup := by
      rw [Binding.expand?_ids hm.fitting hx]
      exact hm.nodup
    exact (passes_rewireNodes hp hn hd).imp_left fun h => ⟨h.hooks, h.wiring⟩

/-- The nodes of other levels are left alone. -/
theorem passes_rewireInstance_of_ne (hp : Placed e) (hj : inst ≠ j) (hn : e.activeKey? j id = some n) (outer : Wires) :
    Bypassed n e (e.rewireInstance inst outer) (e.rewireInstanceCalls inst outer) := by
  refine ⟨hooksOf_eq_nil fun c hc hcn => ?_, ?_⟩
  · obtain ⟨-, id', hn'⟩ := mem_rewireInstanceCalls hc
    exact hj (hp.inj (hcn ▸ hn') hn).1
  · have hs : Spares (fun j' _ => j' = j) e (e.rewireInstance inst outer) := spares_rewireInstance hp (fun _ => hj) outer
    exact hs.wiring j id n rfl hn

/-! ## What the wiring of one node calls -/

/-- A node that is wired anew is called once, after its instance. -/
theorem hooksOf_rewireOne (hp : Placed e) (ha : ∀ u, e.instance? k u ≠ some k) (hn : e.activeKey? k id = some n)
    (config : FlowConfig) (u : NodeId) :
    hooksOf n (e.rewireOneCalls k config u) = if u = id ∧ (config.node? u).isSome = true then [.rewire] else [] := by
  unfold rewireOneCalls
  split
  · rename_i r m hr hm
    have hinst {inst : LevelKey} (hi : e.instance? k u = some inst) :
        hooksOf n (e.rewireInstanceCalls inst r.outputs) = [] := by
      refine hooksOf_eq_nil fun c hc hcn => ?_
      obtain ⟨-, id', hn'⟩ := mem_rewireInstanceCalls hc
      exact ha u ((hp.inj (hcn ▸ hn') hn).1 ▸ hi)
    have hiff : m = n ↔ u = id := by
      constructor
      · rintro rfl
        exact (hp.inj hm hn).2
      · rintro rfl
        exact Option.some.inj (hm.symm.trans hn)
    rw [hooksOf_append, hooksOf_singleton, hr]
    cases hi : e.instance? k u with
    | none => simp [hiff, hooksOf]
    | some inst => simp [hiff, hinst hi]
  · rename_i hnone
    rw [if_neg]
    · rfl
    · rintro ⟨rfl, hr⟩
      obtain ⟨r, hr⟩ := Option.isSome_iff_exists.mp hr
      exact hnone r n hr hn

/-- A node of an instance is called if the usage node is wired anew. -/
theorem passes_rewireOne (hp : Placed e) (hj : j ≠ k)
    (hb : ∀ u, e.instance? k u = some j → ∃ b, e.binding? j = some b ∧ b.Made) (hn : e.activeKey? j id = some n)
    (config : FlowConfig) (u : NodeId) :
    Bypassed n e (e.rewireOne k config u) (e.rewireOneCalls k config u) ∨
      hooksOf n (e.rewireOneCalls k config u) = [.rewire] ∧ e.instance? k u = some j ∧ (config.node? u).isSome = true := by
  unfold rewireOne rewireOneCalls
  cases hr : config.node? u with
  | none => exact .inl (.refl n e)
  | some r =>
    cases hu : e.activeKey? k u with
    | none => exact .inl (.refl n e)
    | some m =>
      have hne : m ≠ n := by
        rintro rfl
        exact hj (hp.inj hn hu).1
      have hown (s : Engine) : Bypassed n s (s.updateWires m r.outputs) [⟨m, .rewire⟩] :=
        ⟨(hooksOf_singleton m n .rewire).trans (if_neg hne), wiring_updateWires_of_ne s hne _⟩
      cases hi : e.instance? k u with
      | none => exact .inl (hown e)
      | some inst =>
        dsimp only
        by_cases hinst : inst = j
        · subst hinst
          obtain ⟨b, hb, hm⟩ := hb u hi
          refine (passes_rewireInstance hp hb hm hn r.outputs).imp (fun h => h.append (hown _)) fun h => ⟨?_, rfl, rfl⟩
          rw [hooksOf_append, h, (hown e).hooks]
          rfl
        · exact .inl ((passes_rewireInstance_of_ne hp hinst hn r.outputs).append (hown _))

/-! ## What an application calls -/

/-- What the application of a diff calls on a node of the flow: its hook once if the diff has it rewired and it is still in
the configuration, and nothing otherwise. -/
theorem hooksOf_rewire (hp : Placed e) (ha : ∀ u, e.instance? k u ≠ some k) (hn : e.activeKey? k id = some n)
    (hd : ids.Nodup) (config : FlowConfig) :
    hooksOf n (callsAlong (rewireOne k config) (rewireOneCalls k config) e ids) =
      if id ∈ ids ∧ (config.node? id).isSome = true then [.rewire] else [] := by
  induction ids generalizing e with
  | nil => rfl
  | cons u ids ih =>
    obtain ⟨hnot, hd⟩ := List.nodup_cons.mp hd
    have hentries := (rewires_rewireOne k config e u).entries
    rw [callsAlong, hooksOf_append, hooksOf_rewireOne hp ha hn,
      ih (hp.rewires (rewires_rewireOne k config e u)) (fun u' => by rw [(hentries k u').2]; exact ha u')
        ((hentries k id).1.trans hn) hd]
    by_cases hu : u = id
    · subst hu
      by_cases hc : (config.node? u).isSome = true <;> simp [hc, hnot]
    · simp [hu, Ne.symm hu]

/-- A node that has been wired anew has the wiring of its record. -/
theorem wiring_rewire (hp : Placed e) (ha : ∀ u, e.instance? k u ≠ some k) (hn : e.activeKey? k id = some n)
    {r : Record} (hr : config.node? id = some r) (hm : id ∈ ids) :
    ((ids.foldl (rewireOne k config) e).node? n).map (·.dispatch.toWires) = some r.outputs := by
  induction ids generalizing e with
  | nil => cases hm
  | cons u ids ih =>
    have hstep := rewires_rewireOne k config e u
    have hentries := Rewires.entries hstep
    have hn' := (hentries k id).1.trans hn
    have ha' (u' : NodeId) : (e.rewireOne k config u).instance? k u' ≠ some k := by
      rw [(hentries k u').2]
      exact ha u'
    rw [List.foldl_cons]
    by_cases hids : id ∈ ids
    · exact ih (hp.rewires hstep) ha' hn' hids
    · obtain rfl : id = u := (List.mem_cons.mp hm).resolve_right hids
      have hrest : Spares (fun j id' => j = k ∧ id' = id) (e.rewireOne k config id)
          (ids.foldl (rewireOne k config) (e.rewireOne k config id)) := by
        refine spares_rewireAll (hp.rewires hstep) (fun u hu _ ⟨_, he⟩ => hids (he ▸ hu)) fun u _ _ inst hi _ ⟨he, _⟩ => ?_
        exact ha' u (he ▸ hi)
      have hwires := congrArg (Option.map Dispatch.toWires) (hrest.wiring k id n ⟨rfl, rfl⟩ hn')
      rw [Option.map_map, Option.map_map] at hwires
      refine Eq.trans hwires ?_
      unfold rewireOne
      rw [hr, hn]
      refine wiring_updateWires ?_ r.outputs
      split
      · rename_i inst hi
        have hrew := rewires_rewireInstance e inst r.outputs
        exact (hp.rewires hrew).lt_size ((Rewires.entries hrew k id).1.trans hn)
      · exact hp.lt_size hn

/-- What the application of a diff calls on a node of an instance. -/
theorem passes_rewire (hp : Placed e) (hj : j ≠ k)
    (hb : ∀ u, e.instance? k u = some j → ∃ b, e.binding? j = some b ∧ b.Made) (hn : e.activeKey? j id = some n)
    (hone : ∀ u u', e.instance? k u = some j → e.instance? k u' = some j → u = u')
    (hd : ids.Nodup) (config : FlowConfig) :
    Bypassed n e (ids.foldl (rewireOne k config) e) (callsAlong (rewireOne k config) (rewireOneCalls k config) e ids) ∨
      hooksOf n (callsAlong (rewireOne k config) (rewireOneCalls k config) e ids) = [.rewire] ∧
        ∃ u ∈ ids, e.instance? k u = some j ∧ (config.node? u).isSome = true := by
  induction ids generalizing e with
  | nil => exact .inl (.refl n e)
  | cons u ids ih =>
    obtain ⟨hnot, hd⟩ := List.nodup_cons.mp hd
    have hstep := rewires_rewireOne k config e u
    have hentries := Rewires.entries hstep
    have hrest := ih (hp.rewires hstep)
      (fun u' hi => (hb u' ((hentries k u').2.symm.trans hi)).imp fun b h => ⟨(Rewires.grows hstep).binding? h.1, h.2⟩)
      ((hentries j id).1.trans hn)
      (fun u₁ u₂ h₁ h₂ => hone u₁ u₂ ((hentries k u₁).2.symm.trans h₁) ((hentries k u₂).2.symm.trans h₂)) hd
    rcases passes_rewireOne hp hj hb hn config u with h | ⟨h, hi, hc⟩
    · refine hrest.imp (fun hr => h.append hr) fun ⟨hr, u', hu', hi', hc'⟩ => ⟨?_, u', List.mem_cons_of_mem _ hu',
        (hentries k u').2.symm.trans hi', hc'⟩
      rw [callsAlong, hooksOf_append, h.hooks, hr]
      rfl
    · -- no other usage node has this instance
      have hnil := hrest.resolve_right fun ⟨_, u', hu', hi', _⟩ =>
        hnot (hone u u' hi ((hentries k u').2.symm.trans hi') ▸ hu')
      refine .inr ⟨?_, u, List.mem_cons_self, hi, hc⟩
      rw [callsAlong, hooksOf_append, h, hnil.hooks]
      rfl

end Engine
end Flowgraph
