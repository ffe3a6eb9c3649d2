import Nds3.Tree.ExternalNames

/-!
# What initialization leaves as it was

Initialization changes what an element caches, its level, its parent, its interface and its state.
Everything else is still that of the tree that was built, and so are the paths.
-/

namespace Nds3

open Effect

namespace Element

/-- A base before initialization. -/
def bareBase (b : Base) : Base := .construct b.externalName b.defined

/-- A port without its interface. -/
def bareClass : NodeClass → NodeClass
  | .nodeImpl => .nodeImpl
  | .portImpl _ => .portImpl none

mutual

/-- A tree without what initialization changes. -/
def bare : Element → Element
  | inputPV ptr name b t => inputPV ptr name (bareBase b) t
  | outputPV ptr name b t => outputPV ptr name (bareBase b) t
  | node name b t k children => node name (bareBase b) t (bareClass k) (bareAll children)
  | stateMachine b _ children =>
    stateMachine (bareBase b) ⟨.off, ⟨0, 0⟩, State.toInt_off_pos⟩ (bareAll children)

def bareAll : List Element → List Element
  | [] => []
  | e :: children => bare e :: bareAll children

end

theorem bareAll_eq (children : List Element) : bareAll children = children.map bare := by
  induction children with
  | nil => rfl
  | cons c children ih => rw [bareAll, ih, List.map_cons]

@[simp] theorem name_bare (e : Element) : e.bare.name = e.name := by
  cases e <;> rfl

@[simp] theorem role_bare (e : Element) : e.bare.role = e.role := by
  cases e <;> rfl

@[simp] theorem externalName_bare (e : Element) :
    e.bare.base.externalName = e.base.externalName := by
  cases e <;> rfl

@[simp] theorem isSome_machine?_bare (e : Element) :
    e.bare.machine?.isSome = e.machine?.isSome := by
  cases e <;> rfl

@[simp] theorem children_bare (e : Element) : e.bare.children = e.children.map bare := by
  cases e <;> simp [bare, children, bareAll_eq]

theorem exists_child_of_bare {e e' c' : Element} (h : e.bare = e'.bare) (hc : c' ∈ e'.children) :
    ∃ c ∈ e.children, c.bare = c'.bare := by
  have hmem : c'.bare ∈ e.children.map bare := by
    rw [← children_bare, h, children_bare]
    exact List.mem_map_of_mem hc
  obtain ⟨c, hc, heq⟩ := List.mem_map.mp hmem
  exact ⟨c, hc, heq⟩

theorem Below.of_bare {e e' x' : Element} {path' : List Element} (h : e.bare = e'.bare)
    (hx : e'.Below path' x') :
    ∃ path x, e.Below path x ∧ x.bare = x'.bare ∧ path.map bare = path'.map bare := by
  induction hx generalizing e with
  | refl e' => exact ⟨[], e, .refl e, h, rfl⟩
  | @child e' c' x' path' hc _ ih =>
    obtain ⟨c, hc, heq⟩ := exists_child_of_bare h hc
    obtain ⟨path, x, hx, hbare, hpath⟩ := ih heq
    exact ⟨c :: path, x, .child hc hx, hbare, by rw [List.map_cons, List.map_cons, heq, hpath]⟩

theorem map_name_of_bare {path path' : List Element} (h : path.map bare = path'.map bare) :
    path.map name = path'.map name := by
  have := congrArg (List.map name) h
  rwa [List.map_map, List.map_map, show name ∘ bare = name from funext name_bare] at this

theorem Below.concat {e x c : Element} {path : List Element} (h : e.Below path x)
    (hc : c ∈ x.children) : e.Below (path ++ [c]) c := by
  induction h with
  | refl e => exact .child hc (.refl c)
  | child hd _ ih => exact .child hd (ih hc)

theorem Below.append {e x y : Element} {path path' : List Element} (h : e.Below path x)
    (h' : x.Below path' y) : e.Below (path ++ path') y := by
  induction h with
  | refl e => exact h'
  | child hc _ ih => exact .child hc (ih h')

/-! ## Paths and names -/

/-- The children of every element have different names. -/
def DistinctSiblings (e : Element) : Prop :=
  ∀ path x, e.Below path x → (x.children.map name).Nodup

theorem WellFormed.of_below {e x : Element} {path : List Element} (h : e.WellFormed)
    (hx : e.Below path x) : x.WellFormed := by
  induction hx with
  | refl e => exact h
  | child hc _ ih => exact ih (h.children.2 _ hc)

theorem WellFormed.distinctSiblings {e : Element} (h : e.WellFormed) : e.DistinctSiblings :=
  fun _ _ hx => List.pairwise_map.mpr ((h.of_below hx).children.1.imp fun hlt => ne_of_lt hlt)

theorem DistinctSiblings.of_bare {e e' : Element} (h : e.DistinctSiblings)
    (hb : e.bare = e'.bare) : e'.DistinctSiblings := by
  intro path' x' hx'
  obtain ⟨path, x, hx, hbare, -⟩ := hx'.of_bare hb
  have hnames : x'.children.map name = x.children.map name := by
    apply map_name_of_bare
    rw [← children_bare, ← hbare, children_bare]
  rw [hnames]
  exact h path x hx

/-- The names of a path tell it from every other path. -/
theorem DistinctSiblings.eq_of_names {e x y : Element} {path path' : List Element}
    (h : e.DistinctSiblings) (hx : e.Below path x) (hy : e.Below path' y)
    (hn : path.map name = path'.map name) : path = path' := by
  induction hx generalizing path' with
  | refl e => exact (List.map_eq_nil_iff.mp hn.symm).symm
  | @child e c x path hc hx ih =>
    cases hy with
    | refl => cases hn
    | @child _ d _ path' hd hy =>
      obtain ⟨hcd, hrest⟩ := List.cons.inj hn
      obtain rfl : c = d := List.inj_on_of_nodup_map (h [] e (.refl e)) hc hd hcd
      have hbelow : c.DistinctSiblings := fun p z hz => h (c :: p) z (.child hc hz)
      rw [ih hbelow hy hrest]

end Element

open Element

/-! ## The walk -/

section

variable {cs : ControlSystem}

/-- What the walk leaves of an element, and the full names that it caches. -/
structure Kept (parents : List Link) (e e' : Element) : Prop where
  bare : e'.bare = e.bare
  fullName : ∀ path x, e'.Below path x →
    x.base.cachedFullName = buildFullName ((path.map link).reverse ++ e'.link :: parents)

theorem fullName_of_children {parents : List Link} {e : Element} {l : Link} (hl : e.link = l)
    (hname : e.base.cachedFullName = buildFullName (l :: parents))
    (hchildren : ∀ c ∈ e.children, ∀ path x, c.Below path x →
      x.base.cachedFullName = buildFullName ((path.map link).reverse ++ c.link :: l :: parents)) :
    ∀ path x, e.Below path x →
      x.base.cachedFullName = buildFullName ((path.map link).reverse ++ e.link :: parents) := by
  subst hl
  intro path x h
  cases h with
  | refl => exact hname
  | @child _ c _ path hc h => simpa using hchildren c hc path x h

theorem bareClass_eq {k k' : NodeClass} (h : k' = .nodeImpl ↔ k = .nodeImpl) :
    bareClass k' = bareClass k := by
  cases k <;> cases k' <;> simp_all [bareClass]

@[simp] theorem bareBase_under (b : Base) (parents : List Link) :
    bareBase (b.under parents) = bareBase b := by
  cases parents <;> rfl

mutual

theorem initializeElement_kept {parents : List Link} {port : Option Nat} :
    (e : Element) → ∀ {e' w w'}, initializeElement cs parents port e w = .ok e' w' →
      Kept parents e e'
  | .inputPV ptr name b t, e', w, w', h => by
    obtain ⟨b1, w1, w2, hb, rfl⟩ := initializeElement_inputPV h
    obtain ⟨s, sPort, -, -, rfl⟩ := baseInitialize_ok hb
    refine ⟨?_, fullName_of_children rfl rfl fun c hc => by cases hc⟩
    rw [Element.bare, Element.bare, ← bareBase_under b parents]
    rfl
  | .outputPV ptr name b t, e', w, w', h => by
    obtain ⟨b1, w1, w2, hb, rfl⟩ := initializeElement_outputPV h
    obtain ⟨s, sPort, -, -, rfl⟩ := baseInitialize_ok hb
    refine ⟨?_, fullName_of_children rfl rfl fun c hc => by cases hc⟩
    rw [Element.bare, Element.bare, ← bareBase_under b parents]
    rfl
  | .node name b t k children, e', w, w', h => by
    obtain ⟨k1, b1, children1, w1, w2, w3, w4, hk, hb, hc, rfl⟩ := initializeElement_node h
    obtain ⟨s, sPort, -, -, rfl⟩ := baseInitialize_ok hb
    obtain ⟨hbare, hname⟩ := initializeChildren_kept children hc
    refine ⟨?_, fullName_of_children ?_ rfl hname⟩
    · rw [Element.bare, Element.bare, bareAll_eq, bareAll_eq, hbare,
        bareClass_eq hk, ← bareBase_under b parents]
      rfl
    · exact link_node hk rfl rfl
  | .stateMachine b m children, e', w, w', h => by
    obtain ⟨b1, m1, children1, w1, w2, w3, hb, hc, rfl⟩ := initializeElement_stateMachine h
    obtain ⟨s, sPort, -, -, rfl⟩ := baseInitialize_ok hb
    obtain ⟨hbare, hname⟩ := initializeChildren_kept children hc
    refine ⟨?_, fullName_of_children rfl rfl hname⟩
    rw [Element.bare, Element.bare, bareAll_eq, bareAll_eq, hbare, ← bareBase_under b parents]
    rfl

theorem initializeChildren_kept {parents : List Link} {port : Option Nat} :
    (children : List Element) → ∀ {children' w w'},
      initializeChildren cs parents port children w = .ok children' w' →
      children'.map Element.bare = children.map Element.bare ∧
      ∀ c ∈ children', ∀ path x, c.Below path x →
        x.base.cachedFullName = buildFullName ((path.map link).reverse ++ c.link :: parents)
  | [], children', w, w', h => by
    obtain ⟨rfl, -⟩ := pure_eq_ok.mp h
    exact ⟨rfl, fun c hc => by cases hc⟩
  | c :: children, children', w, w', h => by
    simp only [initializeChildren, bind_eq_ok, pure_eq_ok] at h
    obtain ⟨c1, w1, hc, children1, w2, hcs, rfl, -⟩ := h
    have hfirst := initializeElement_kept c hc
    obtain ⟨hbare, hname⟩ := initializeChildren_kept children hcs
    rw [List.map_cons, List.map_cons, hfirst.bare, hbare, List.forall_mem_cons]
    exact ⟨rfl, hfirst.fullName, hname⟩

end

theorem initializeRootNode_kept {pDeviceObject : Nat} {root root' : Element} {w w' : World}
    (h : initializeRootNode cs pDeviceObject root w = .ok root' w') : Kept [] root root' := by
  obtain ⟨w1, hwalk⟩ := initializeRootNode_ok h
  exact initializeElement_kept root hwalk

end

end Nds3
