import Nds3.Lib.Spelling
import Nds3.Tree.Shape
import Mathlib.Data.List.Induction

/-!
# Full names

A full name spells the path to an element with `-` between the component names, and a component
name may have a `-` in it.
-/

namespace Nds3

open Element Spelling

/-! ## Spelled paths -/

theorem buildFullName_cons {e : Link} {path : List Link} (h : path ≠ []) :
    buildFullName (e :: path) = buildFullName path ++ "-" ++ e.name := by
  cases path with
  | nil => exact absurd rfl h
  | cons p path => rfl

namespace Element

/-- The component names of a path. -/
def names (path : List Element) : List (List Char) := path.map fun e => e.name.toList

theorem toList_buildFullName (root : Element) (path : List Element) :
    (buildFullName ((path.map link).reverse ++ [root.link])).toList =
      root.name.toList ++ spell '-' (names path) := by
  induction path using List.reverseRecOn with
  | nil => simp [buildFullName, names, link]
  | append_singleton path e ih =>
    have hlinks : ((path ++ [e]).map link).reverse ++ [root.link] =
        e.link :: ((path.map link).reverse ++ [root.link]) := by
      rw [List.map_append, List.reverse_append]
      rfl
    have hnames : names (path ++ [e]) = names path ++ [e.name.toList] := List.map_append
    rw [hlinks, buildFullName_cons (by simp), String.toList_append, String.toList_append, ih,
      hnames, spell_append, List.append_assoc, List.append_assoc]
    simp [link]

theorem names_of_bare {path path' : List Element} (h : path.map bare = path'.map bare) :
    names path = names path' := by
  have := congrArg (List.map String.toList) (map_name_of_bare h)
  rwa [List.map_map, List.map_map] at this

theorem map_name_of_names {path path' : List Element} (h : names path = names path') :
    path.map name = path'.map name := by
  have := congrArg (List.map String.ofList) h
  rw [names, names, List.map_map, List.map_map] at this
  simpa [Function.comp_def] using this

/-- Different elements have different full names. An element is where its path leads. -/
def DistinctFullNames (root : Element) : Prop :=
  ∀ path x path' x', root.Below path x → root.Below path' x' →
    x.base.cachedFullName = x'.base.cachedFullName → path = path'

/-- Two elements are below different children of one node, the name of one child goes on with a `-`
where that of the other one ends, and the names below fill the difference. -/
def Clash (root : Element) : Prop :=
  ∃ path x path' x', root.Below path x ∧ root.Below path' x' ∧
    Splits '-' (names path) (names path')

theorem Clash.of_bare {e e' : Element} (h : e'.Clash) (hb : e.bare = e'.bare) : e.Clash := by
  obtain ⟨path, x, path', x', hx, hx', hs⟩ := h
  obtain ⟨path1, x1, hx1, -, hp1⟩ := hx.of_bare hb
  obtain ⟨path2, x2, hx2, -, hp2⟩ := hx'.of_bare hb
  exact ⟨path1, x1, path2, x2, hx1, hx2, by rwa [names_of_bare hp1, names_of_bare hp2]⟩

theorem not_clash_of_notMem {root : Element}
    (h : ∀ path x, root.Below path x → ∀ e ∈ path, '-' ∉ e.name.toList) : ¬ root.Clash := by
  rintro ⟨path, x, path', x', -, hx', hs⟩
  obtain ⟨n, hn, hmem⟩ := hs.exists_mem
  obtain ⟨e, he, rfl⟩ := List.mem_map.mp hn
  exact h path' x' hx' e he hmem

end Element

theorem Kept.distinctFullNames_iff {root root' : Element} (h : Kept [] root root')
    (hw : root.WellFormed) : DistinctFullNames root' ↔ ¬ root.Clash := by
  have hd : root'.DistinctSiblings := hw.distinctSiblings.of_bare h.bare.symm
  have hname {path : List Element} {x : Element} (hx : root'.Below path x) :
      x.base.cachedFullName.toList = root'.name.toList ++ spell '-' (names path) := by
    rw [h.fullName path x hx, toList_buildFullName]
  constructor
  · intro hdist hclash
    obtain ⟨path, x, path', x', hx, hx', hs⟩ := hclash.of_bare h.bare
    have hfull : x.base.cachedFullName = x'.base.cachedFullName := by
      apply String.toList_injective
      rw [hname hx, hname hx', hs.spell_eq]
    exact hs.ne (congrArg names (hdist path x path' x' hx hx' hfull))
  · intro hno path x path' x' hx hx' hfull
    by_contra hne
    have hspell : spell '-' (names path) = spell '-' (names path') := by
      have := congrArg String.toList hfull
      rwa [hname hx, hname hx', List.append_cancel_left_eq] at this
    have hnames : names path ≠ names path' := fun hn =>
      hne (hd.eq_of_names hx hx' (map_name_of_names hn))
    refine hno (Clash.of_bare ?_ h.bare.symm)
    obtain hs | hs := splits_of_spell_eq hspell hnames
    · exact ⟨path, x, path', x', hx, hx', hs⟩
    · exact ⟨path', x', path, x, hx', hx, hs⟩

/-- Full names identify the elements of an initialized tree exactly when no names clash. -/
theorem fullNames_distinct_iff {cs : ControlSystem} {pDeviceObject : Nat} {root root' : Element}
    {w w' : World} (hw : root.WellFormed)
    (h : initializeRootNode cs pDeviceObject root w = .ok root' w') :
    DistinctFullNames root' ↔ ¬ root.Clash :=
  (initializeRootNode_kept h).distinctFullNames_iff hw

theorem wellFormed_portBelowRoot : portBelowRoot.WellFormed := by
  refine .node (List.pairwise_singleton ..) fun c hc => ?_
  obtain rfl := List.mem_singleton.mp hc
  refine .node (List.pairwise_singleton ..) fun c hc => ?_
  obtain rfl := List.mem_singleton.mp hc
  exact .inputPV

theorem fullNames_distinct_portBelowRoot : ∃ root' w',
    initializeRootNode testControlSystem 0 portBelowRoot .empty = .ok root' w' ∧
    DistinctFullNames root' := by
  have h : ∃ root' w', initializeRootNode testControlSystem 0 portBelowRoot .empty =
    .ok root' w' := ⟨_, _, rfl⟩
  obtain ⟨root', w', h⟩ := h
  refine ⟨root', w', h, (fullNames_distinct_iff wellFormed_portBelowRoot h).mpr ?_⟩
  refine not_clash_of_notMem fun path x hx e he => ?_
  cases hx with
  | refl => cases he
  | child hc hx =>
    obtain rfl := List.mem_singleton.mp hc
    obtain rfl | he := List.mem_cons.mp he
    · decide
    cases hx with
    | refl => cases he
    | child hc hx =>
      obtain rfl := List.mem_singleton.mp hc
      obtain rfl | he := List.mem_cons.mp he
      · decide
      cases hx with
      | refl => cases he
      | child hc => cases hc

/-- The child `b` of a node `a` next to a node `a-b`. -/
def dashedNames : Element :=
  .node "root" (.construct "root" []) .generic .nodeImpl
    [.node "a" (.construct "a" []) .generic .nodeImpl [leaf "b"], leaf "a-b"]

/-- Both are called `root-a-b`. -/
theorem fullNames_not_distinct : ¬ ∀ (cs : ControlSystem) (pDeviceObject : Nat)
    (root root' : Element) (w w' : World), root.WellFormed →
      initializeRootNode cs pDeviceObject root w = .ok root' w' → DistinctFullNames root' := by
  intro hall
  have hleaf (n : String) : (leaf n).WellFormed := .node .nil fun c hc => by cases hc
  have hsorted : ["a", "a-b"].Pairwise (· < ·) := by decide
  have hw : dashedNames.WellFormed := by
    refine .node (by rw [Sorted, ← List.pairwise_map (f := name)]; exact hsorted) fun c hc => ?_
    simp only [List.mem_cons, List.not_mem_nil, or_false] at hc
    rcases hc with rfl | rfl
    · refine .node (List.pairwise_singleton ..) fun c hc => ?_
      obtain rfl := List.mem_singleton.mp hc
      exact hleaf "b"
    · exact hleaf "a-b"
  have h : ∃ root' w', initializeRootNode testControlSystem 0 dashedNames .empty =
    .ok root' w' := ⟨_, _, rfl⟩
  obtain ⟨root', w', h⟩ := h
  refine ((initializeRootNode_kept h).distinctFullNames_iff hw).mp (hall _ _ _ _ _ _ hw h) ?_
  exact ⟨[_, leaf "b"], leaf "b", [leaf "a-b"], leaf "a-b",
    .child (.head _) (.child (.head _) (.refl _)), .child (.tail _ (.head _)) (.refl _),
    [], ['a'], [['b']], ['b'], [], rfl, rfl, rfl⟩

end Nds3
