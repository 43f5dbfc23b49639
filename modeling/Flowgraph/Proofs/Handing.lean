import Flowgraph.Proofs.Runs
/-! What comes of work with messages, until the agenda is again what it was behind that work: which messages are handed
to which nodes, and in what order. -/
namespace Flowgraph.Engine

variable {e e' e'' s s' : Engine} {a : Action} {base : List Action}

/-- The message that an action hands to a node, unless the node has been told to stop. -/
def handed (e : Engine) : Action → List (NodeKey × Message)
  | .hand n m => if ((e.node? n).map (·.cancelled)).getD true then [] else [(n, m)]
  | _ => []

/-- What is on the agenda before `base` is done, with all that comes of it, and these messages are handed out by it. -/
inductive Hands (base : List Action) : Engine → List (NodeKey × Message) → Engine → Prop
  | done {e : Engine} (ha : e.agenda = base) : Hands base e [] e
  | act {e e' : Engine} {a : Action} {above : List Action} {given : List (NodeKey × Message)} (hb : e.broken = false)
      (ha : e.agenda = a :: (above ++ base)) (hq : a.isQuiet = true)
      (h : Hands base (({ e with agenda := above ++ base } : Engine).act a) given e') :
      Hands base e (e.handed a ++ given) e'

namespace Hands

variable {given given' : List (NodeKey × Message)}

theorem first (hb : e.broken = false) (ha : e.agenda = a :: base) (hq : a.isQuiet = true)
    (h : Hands base (({ e with agenda := base } : Engine).act a) given e') : Hands base e (e.handed a ++ given) e' := by
  have ha' : e.agenda = a :: ([] ++ base) := ha
  exact .act hb ha' hq h

/-- Such work touches nothing but messages and tasks, and ends with the agenda it stands before. -/
theorem still (h : Hands base e given e') : e'.still = e.still ∧ e'.agenda = base := by
  induction h with
  | done ha => exact ⟨rfl, ha⟩
  | act hb ha hq _ ih => exact ⟨ih.1.trans ((quiet_act _ hq).still.trans rfl), ih.2⟩

/-- These are steps that the engine takes by itself. -/
theorem reach (h : Hands base e given e') : Reach e e' := by
  induction h with
  | done => exact .refl _
  | act hb ha hq _ ih => exact (Reach.single (.act hb ha)).trans ih

theorem append {between : List Action} (h : Hands (between ++ base) e given e') (h' : Hands base e' given' e'') :
    Hands base e (given ++ given') e'' := by
  induction h with
  | done => exact h'
  | @act e e₁ a above given hb ha hq _ ih =>
    rw [List.append_assoc]
    have ha' : e.agenda = a :: ((above ++ between) ++ base) := by rw [ha, List.append_assoc]
    refine .act hb ha' hq ?_
    rw [List.append_assoc]
    exact ih h'

/-- There is only one way in which the work is done. -/
theorem unique (h : Hands base e given e') (h' : Hands base e given' e'') : given' = given ∧ e'' = e' := by
  have hlong {a : Action} {above : List Action} (he : base = a :: (above ++ base)) : False := by
    have := congrArg List.length he
    simp only [List.length_cons, List.length_append] at this
    omega
  induction h generalizing given' with
  | done ha =>
    cases h' with
    | done => exact ⟨rfl, rfl⟩
    | act _ ha' => exact (hlong (ha.symm.trans ha')).elim
  | act hb ha hq _ ih =>
    cases h' with
    | done ha' => exact (hlong (ha'.symm.trans ha)).elim
    | act _ ha' _ h' =>
      obtain ⟨rfl, happ⟩ := List.cons.inj (ha.symm.trans ha')
      obtain rfl := List.append_cancel_right happ
      obtain ⟨rfl, rfl⟩ := ih h'
      exact ⟨rfl, rfl⟩

end Hands

/-! ## Work that comes to an end -/

/-- What comes of an action comes to an end, whatever has been done with messages before. -/
def Settles (e : Engine) (a : Action) : Prop :=
  ∀ s base, s.still = e.still → s.agenda = a :: base → ∃ given s', Hands base s given s'

/-- These messages are what some of these actions hand out. -/
def Aside (e : Engine) (others : Action → Prop) (given : List (NodeKey × Message)) : Prop :=
  ∃ a s base s', others a ∧ s.still = e.still ∧ s.agenda = a :: base ∧ Hands base s given s'

theorem Aside.mono {others others' : Action → Prop} {given : List (NodeKey × Message)} (h : e.Aside others given)
    (hm : ∀ a, others a → others' a) : e.Aside others' given := by
  obtain ⟨a, s, base, s', ha, hs, hagenda, hh⟩ := h
  exact ⟨a, s, base, s', hm a ha, hs, hagenda, hh⟩

/-- The messages of a list in their order, and among them only those that other actions hand out. -/
inductive Amid (aside : List (NodeKey × Message) → Prop) :
    List (NodeKey × Message) → List (NodeKey × Message) → Prop
  | nil : Amid aside [] []
  | main {main given : List (NodeKey × Message)} (x : NodeKey × Message) (h : Amid aside main given) :
      Amid aside (x :: main) (x :: given)
  | aside {main more given : List (NodeKey × Message)} (ha : aside more) (h : Amid aside main given) :
      Amid aside main (more ++ given)

namespace Amid

variable {aside : List (NodeKey × Message) → Prop} {main main' given given' : List (NodeKey × Message)}

theorem append (h : Amid aside main given) (h' : Amid aside main' given') :
    Amid aside (main ++ main') (given ++ given') := by
  induction h with
  | nil => exact h'
  | main x _ ih => exact .main x ih
  | aside ha _ ih =>
    rw [List.append_assoc]
    exact .aside ha ih

theorem mono {aside' : List (NodeKey × Message) → Prop} (h : Amid aside main given)
    (hm : ∀ given, aside given → aside' given) : Amid aside' main given := by
  induction h with
  | nil => exact .nil
  | main x _ ih => exact .main x ih
  | aside ha _ ih => exact .aside (hm _ ha) ih

/-- Where the other actions hand nothing to some nodes, these are handed the messages of the list and no others. -/
theorem filter (h : Amid aside main given) (keys : List NodeKey) (hmain : ∀ x ∈ main, x.1 ∈ keys)
    (hout : ∀ given, aside given → ∀ x ∈ given, x.1 ∉ keys) : given.filter (fun x => x.1 ∈ keys) = main := by
  induction h with
  | nil => rfl
  | main x _ ih =>
    rw [List.filter_cons_of_pos (by simpa using hmain x List.mem_cons_self),
      ih fun y hy => hmain y (List.mem_cons_of_mem _ hy)]
  | aside ha _ ih =>
    have hnone : List.filter (fun x : NodeKey × Message => decide (x.1 ∈ keys)) _ = [] :=
      List.filter_eq_nil_iff.mpr fun x hx => by simpa using hout _ ha x hx
    rw [List.filter_append, hnone, List.nil_append, ih hmain]

end Amid

/-! ## One action among others -/

/-- An action that comes to an end, having handed out messages of this kind and nothing else but what comes of other
actions. -/
def Conveys (e : Engine) (others : Action → Prop) (a : Action) (main : List (NodeKey × Message) → Prop) : Prop :=
  ∀ s base, s.still = e.still → s.agenda = a :: base →
    ∃ given s' list, Hands base s given s' ∧ main list ∧ Amid (Aside e others) list given

variable {others : Action → Prop} {main : List (NodeKey × Message) → Prop}

/-- Other actions one after the other. -/
theorem hands_others (hall : ∀ a, others a → e.Settles a) {actions : List Action} (ho : ∀ a ∈ actions, others a)
    (hs : s.still = e.still) (ha : s.agenda = actions ++ base) :
    ∃ given s', Hands base s given s' ∧ Amid (Aside e others) [] given := by
  induction actions generalizing s with
  | nil => exact ⟨[], s, .done ha, .nil⟩
  | cons a actions ih =>
    have hoa := ho a List.mem_cons_self
    obtain ⟨given, s₁, h₁⟩ := hall a hoa s (actions ++ base) hs ha
    obtain ⟨given', s₂, h₂, ham⟩ := ih (fun a ha => ho a (List.mem_cons_of_mem _ ha)) (h₁.still.1.trans hs) h₁.still.2
    exact ⟨given ++ given', s₂, h₁.append h₂, .aside ⟨a, s, _, s₁, hoa, hs, ha, h₁⟩ ham⟩

/-- An action between others. -/
theorem Conveys.among (h : e.Conveys others a main) (hall : ∀ a, others a → e.Settles a) {before after : List Action}
    (hbefore : ∀ a ∈ before, others a) (hafter : ∀ a ∈ after, others a) (hs : s.still = e.still)
    (ha : s.agenda = before ++ a :: after ++ base) :
    ∃ given s' list, Hands base s given s' ∧ main list ∧ Amid (Aside e others) list given := by
  rw [List.append_assoc, List.cons_append] at ha
  obtain ⟨given₁, s₁, h₁, ham₁⟩ := hands_others hall hbefore hs ha
  obtain ⟨given₂, s₂, list, h₂, hmain, ham₂⟩ := h s₁ _ (h₁.still.1.trans hs) h₁.still.2
  have hs₂ : s₂.still = e.still := h₂.still.1.trans (h₁.still.1.trans hs)
  obtain ⟨given₃, s₃, h₃, ham₃⟩ := hands_others hall hafter hs₂ h₂.still.2
  have hlist : list = [] ++ (list ++ []) := by rw [List.append_nil, List.nil_append]
  have h₁ : Hands ((a :: after) ++ base) s given₁ s₁ := h₁
  exact ⟨_, s₃, list, h₁.append (h₂.append h₃), hmain, hlist ▸ ham₁.append (ham₂.append ham₃)⟩

end Flowgraph.Engine
