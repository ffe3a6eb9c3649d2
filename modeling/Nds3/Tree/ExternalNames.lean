import Nds3.Tree.Initialize

/-!
# External names

The external name of an element is put together from the names of the elements above it, each one
after the separator of its level. `m_nodeLevel` counts from the level of the root, and the root
keeps the level it was given if it once was the child of another node: the names use the separators
of the depths where the two levels have the same separators (`composed_iff`), in particular where
the root never had a parent.
-/

namespace Nds3

open Effect

/-! ## The builders on a path -/

/-- What an element adds to the name of its parent, by its level. -/
def Link.part (separator : Nat → String) (name : Role → String → String) (e : Link) : String :=
  if name e.role e.externalName = "" then ""
  else separator e.nodeLevel ++ name e.role e.externalName

/-- What the elements of a path add, the last element of the path first. -/
def linkParts (separator : Nat → String) (name : Role → String → String) : List Link → String
  | [] => ""
  | e :: path => linkParts separator name path ++ e.part separator name

section

variable {cs : Naming} {separator : Nat → String} {name : Role → String → String}
  {rootName : String → String}

theorem linkParts_append (below above : List Link) :
    linkParts separator name (below ++ above) =
      linkParts separator name above ++ linkParts separator name below := by
  induction below with
  | nil => simp [linkParts]
  | cons e below ih => rw [List.cons_append, linkParts, ih, linkParts, String.append_assoc]

theorem buildFullExternalNameOf_cons (h : cs.Gives separator name rootName) {b : Bool}
    {e parent : Link} {above : List Link} {s : String}
    (hs : (if b && parent.isPort then .ok "" else buildFullExternalNameOf cs b (parent :: above)) =
      Except.ok s) :
    buildFullExternalNameOf cs b (e :: parent :: above) = .ok (s ++ e.part separator name) := by
  rw [buildFullExternalNameOf, h.buildName, hs, h.getSeparator, Link.part]
  simp only [bind, Except.bind, pure, Except.pure]
  split
  · rw [String.append_empty]
  · rw [String.append_assoc]

theorem buildFullExternalNameOf_false (h : cs.Gives separator name rootName) (root : Link)
    (path : List Link) : buildFullExternalNameOf cs false (path ++ [root]) =
      .ok (separator 0 ++ rootName root.externalName ++ linkParts separator name path) := by
  induction path with
  | nil =>
    rw [List.nil_append, buildFullExternalNameOf, h.getSeparator, h.getRootNodeName, linkParts,
      String.append_empty]
    rfl
  | cons e path ih =>
    rw [linkParts, ← String.append_assoc]
    cases path with
    | nil => exact buildFullExternalNameOf_cons h ih
    | cons parent path => exact buildFullExternalNameOf_cons h ih

theorem buildFullExternalNameOf_true (h : cs.Gives separator name rootName) {port : Link}
    (hport : port.isPort = true) (above : List Link) {e : Link} {below : List Link}
    (hbelow : ∀ l ∈ below, l.isPort = false) :
    buildFullExternalNameOf cs true (e :: below ++ port :: above) =
      .ok (linkParts separator name (e :: below)) := by
  induction below generalizing e with
  | nil =>
    rw [linkParts]
    exact buildFullExternalNameOf_cons h (by rw [hport]; rfl)
  | cons parent below ih =>
    rw [linkParts]
    refine buildFullExternalNameOf_cons h ?_
    rw [hbelow parent (List.mem_cons_self ..)]
    exact ih fun l hl => hbelow l (List.mem_cons_of_mem _ hl)

/-- **The name from a port is what the elements below it add.** -/
theorem buildFullExternalNameFromPort_port (h : cs.Gives separator name rootName) {port : Link}
    (hport : port.isPort = true) (above : List Link) {below : List Link}
    (hbelow : ∀ l ∈ below, l.isPort = false) :
    buildFullExternalNameFromPort cs (below ++ port :: above) =
      .ok (linkParts separator name below) := by
  cases below with
  | nil =>
    rw [List.nil_append, buildFullExternalNameFromPort, if_pos hport]
    rfl
  | cons e below =>
    rw [List.cons_append, buildFullExternalNameFromPort,
      if_neg (by simp [hbelow e (List.mem_cons_self ..)])]
    exact buildFullExternalNameOf_true h hport above
      fun l hl => hbelow l (List.mem_cons_of_mem _ hl)

theorem buildFullExternalNameOf_eq {path : List Link} (h : ∀ l ∈ path, l.isPort = false) :
    buildFullExternalNameOf cs true path = buildFullExternalNameOf cs false path := by
  induction path with
  | nil => rfl
  | cons e path ih =>
    cases path with
    | nil => rfl
    | cons parent path =>
      have hparent := h parent (by simp)
      simp only [buildFullExternalNameOf, hparent, Bool.and_false,
        ih fun l hl => h l (List.mem_cons_of_mem _ hl)]

theorem buildFullExternalNameFromPort_eq {path : List Link} (h : ∀ l ∈ path, l.isPort = false) :
    buildFullExternalNameFromPort cs path = buildFullExternalName cs path := by
  cases path with
  | nil => rfl
  | cons e path =>
    rw [buildFullExternalNameFromPort, if_neg (by simp [h e (List.mem_cons_self ..)]),
      buildFullExternalName, buildFullExternalNameOf_eq h]

end

/-! ## Paths down a tree -/

namespace Element

/-- The element is reached down the path, which is from a child on. -/
inductive Below : Element → List Element → Element → Prop where
  | refl (e : Element) : Below e [] e
  | child {e c x : Element} {path : List Element} (hc : c ∈ e.children) (h : Below c path x) :
      Below e (c :: path) x

theorem Below.exists_concat {e x : Element} {path : List Element} (h : Below e path x)
    (hne : path ≠ []) : ∃ init parent, path = init ++ [x] ∧ Below e init parent := by
  induction h with
  | refl e => exact absurd rfl hne
  | @child e c x path hc h ih =>
    cases path with
    | nil =>
      cases h
      exact ⟨[], e, rfl, .refl e⟩
    | cons d path =>
      obtain ⟨init, parent, hpath, hparent⟩ := ih (by simp)
      exact ⟨c :: init, parent, by rw [hpath]; rfl, .child hc hparent⟩

theorem Below.of_append {e x y : Element} {before after_ : List Element}
    (h : Below e (before ++ y :: after_) x) : Below e (before ++ [y]) y := by
  induction before generalizing e with
  | nil =>
    cases h with
    | child hc h => exact .child hc (.refl y)
  | cons c before ih =>
    cases h with
    | child hc h => exact .child hc (ih h)

theorem Below.links {e x : Element} {path : List Element} (h : Below e path x)
    (parents : List Link) :
    ∃ above, (path.map link).reverse ++ e.link :: parents = x.link :: above := by
  induction h generalizing parents with
  | refl e => exact ⟨parents, rfl⟩
  | @child e c x path hc h ih =>
    obtain ⟨above, ha⟩ := ih (e.link :: parents)
    exact ⟨above, by simpa using ha⟩

/-- The levels of the elements of a path. -/
def Levelled : Nat → List Element → Prop
  | _, [] => True
  | nodeLevel, e :: path => e.base.nodeLevel = nodeLevel ∧ Levelled (nodeLevel + 1) path

theorem Levelled.append {nodeLevel : Nat} {path path' : List Element}
    (h : Levelled nodeLevel (path ++ path')) : Levelled (nodeLevel + path.length) path' := by
  induction path generalizing nodeLevel with
  | nil => exact h
  | cons e path ih =>
    have hrest := ih h.2
    rwa [Nat.add_right_comm] at hrest

/-- What an element at some depth adds to the name of its parent. -/
def part (separator : Nat → String) (name : Role → String → String) (depth : Nat)
    (e : Element) : String :=
  if name e.role e.base.externalName = "" then ""
  else separator depth ++ name e.role e.base.externalName

/-- What the elements of a path add that starts at some depth. -/
def parts (separator : Nat → String) (name : Role → String → String) : Nat → List Element → String
  | _, [] => ""
  | depth, e :: path => part separator name depth e ++ parts separator name (depth + 1) path

variable {separator : Nat → String} {name : Role → String → String}

theorem parts_append (depth : Nat) (path path' : List Element) :
    parts separator name depth (path ++ path') =
      parts separator name depth path ++ parts separator name (depth + path.length) path' := by
  induction path generalizing depth with
  | nil => simp [parts]
  | cons e path ih =>
    rw [List.cons_append, parts, ih, parts, String.append_assoc, List.length_cons,
      Nat.add_right_comm, Nat.add_assoc]

/-- The parts by the levels are those by the depths, with the separators of the levels. -/
theorem linkParts_eq (rootLevel depth : Nat) {path : List Element}
    (h : Levelled (rootLevel + depth) path) :
    linkParts separator name (path.map link).reverse =
      parts (fun d => separator (rootLevel + d)) name depth path := by
  induction path generalizing depth with
  | nil => rfl
  | cons e path ih =>
    have hfirst : linkParts separator name [e.link] =
        part (fun d => separator (rootLevel + d)) name depth e := by
      rw [linkParts, linkParts, String.empty_append, Link.part, part, ← h.1]
      rfl
    rw [List.map_cons, List.reverse_cons, linkParts_append, hfirst, parts, ih (depth + 1) h.2]

mutual

/-- The depth, the role and the external name of an element and of those below it. -/
def entries (depth : Nat) : Element → List (Nat × Role × String)
  | inputPV _ _ b t => [(depth, .inputPV t, b.externalName)]
  | outputPV _ _ b t => [(depth, .outputPV t, b.externalName)]
  | node _ b t _ children => (depth, .node t, b.externalName) :: entriesAll (depth + 1) children
  | stateMachine b _ children =>
    (depth, .node .stateMachine, b.externalName) :: entriesAll (depth + 1) children

def entriesAll (depth : Nat) : List Element → List (Nat × Role × String)
  | [] => []
  | e :: children => entries depth e ++ entriesAll depth children

end

theorem entries_eq (depth : Nat) (e : Element) : entries depth e =
    (depth, e.role, e.base.externalName) :: entriesAll (depth + 1) e.children := by
  cases e <;> simp only [entries, role, base, children, entriesAll]

theorem mem_entriesAll {depth : Nat} {children : List Element} {x : Nat × Role × String} :
    x ∈ entriesAll depth children ↔ ∃ c ∈ children, x ∈ entries depth c := by
  induction children with
  | nil => simp [entriesAll]
  | cons c children ih => simp [entriesAll, ih]

theorem Below.mem_entries {e x : Element} {path : List Element} (h : Below e path x)
    (depth : Nat) : (depth + path.length, x.role, x.base.externalName) ∈ entries depth e := by
  induction h generalizing depth with
  | refl e => rw [entries_eq]; exact List.mem_cons_self ..
  | @child e c x path hc h ih =>
    rw [entries_eq]
    refine List.mem_cons_of_mem _ (mem_entriesAll.mpr ⟨c, hc, ?_⟩)
    have hmem := ih (depth + 1)
    rwa [Nat.add_right_comm] at hmem

mutual

theorem below_of_mem_entries {x : Nat × Role × String} (depth : Nat) :
    (e : Element) → x ∈ entries depth e → ∃ path y, Below e path y ∧
      x = (depth + path.length, y.role, y.base.externalName)
  | inputPV p n b t, h =>
    ⟨[], inputPV p n b t, .refl _, List.mem_singleton.mp h⟩
  | outputPV p n b t, h =>
    ⟨[], outputPV p n b t, .refl _, List.mem_singleton.mp h⟩
  | node n b t k children, h => by
    rcases List.mem_cons.mp h with rfl | h
    · exact ⟨[], _, .refl (node n b t k children), rfl⟩
    · obtain ⟨c, hc, path, y, hy, rfl⟩ := below_of_mem_entriesAll (depth + 1) children h
      exact ⟨c :: path, y, .child hc hy, by
        rw [List.length_cons, Nat.add_right_comm, Nat.add_assoc]⟩
  | stateMachine b m children, h => by
    rcases List.mem_cons.mp h with rfl | h
    · exact ⟨[], _, .refl (stateMachine b m children), rfl⟩
    · obtain ⟨c, hc, path, y, hy, rfl⟩ := below_of_mem_entriesAll (depth + 1) children h
      exact ⟨c :: path, y, .child hc hy, by
        rw [List.length_cons, Nat.add_right_comm, Nat.add_assoc]⟩

theorem below_of_mem_entriesAll {x : Nat × Role × String} (depth : Nat) :
    (children : List Element) → x ∈ entriesAll depth children → ∃ c ∈ children, ∃ path y,
      Below c path y ∧ x = (depth + path.length, y.role, y.base.externalName)
  | [], h => nomatch h
  | c :: children, h => by
    rcases List.mem_append.mp h with h | h
    · obtain ⟨path, y, hy⟩ := below_of_mem_entries depth c h
      exact ⟨c, List.mem_cons_self .., path, y, hy⟩
    · obtain ⟨d, hd, hrest⟩ := below_of_mem_entriesAll depth children h
      exact ⟨d, List.mem_cons_of_mem _ hd, hrest⟩

end

/-! ## The names that initialization caches -/

/-- The elements of an initialized tree have the levels and the names of their paths. -/
structure Named (cs : Naming) (parents : List Link) (e : Element) : Prop where
  level : ∀ pParent above, parents = pParent :: above → e.base.nodeLevel = pParent.nodeLevel + 1
  levels : ∀ path x, Below e path x → Levelled (e.base.nodeLevel + 1) path
  fullExternalName : ∀ path x, Below e path x →
    buildFullExternalName cs ((path.map link).reverse ++ e.link :: parents) =
      .ok x.base.cachedFullExternalName
  fullExternalNameFromPort : ∀ path x, Below e path x →
    buildFullExternalNameFromPort cs ((path.map link).reverse ++ e.link :: parents) =
      .ok x.base.cachedFullExternalNameFromPort

theorem Named.of_children {cs : Naming} {parents : List Link} {e : Element} {l : Link}
    (hl : e.link = l)
    (hlevel : ∀ pParent above, parents = pParent :: above →
      e.base.nodeLevel = pParent.nodeLevel + 1)
    (hname : buildFullExternalName cs (l :: parents) = .ok e.base.cachedFullExternalName)
    (hport : buildFullExternalNameFromPort cs (l :: parents) =
      .ok e.base.cachedFullExternalNameFromPort)
    (hchildren : ∀ c ∈ e.children, Named cs (l :: parents) c) : Named cs parents e := by
  subst hl
  refine ⟨hlevel, ?_, ?_, ?_⟩
  · intro path x h
    cases h with
    | refl => trivial
    | @child _ c _ path hc h =>
      have hcl := (hchildren c hc).level _ _ rfl
      refine ⟨hcl, ?_⟩
      have hrest := (hchildren c hc).levels path x h
      rwa [hcl] at hrest
  · intro path x h
    cases h with
    | refl => exact hname
    | @child _ c _ path hc h =>
      simpa using (hchildren c hc).fullExternalName path x h
  · intro path x h
    cases h with
    | refl => exact hport
    | @child _ c _ path hc h =>
      simpa using (hchildren c hc).fullExternalNameFromPort path x h

theorem link_node {n : String} {b b' : Base} {t : NodeType} {k k' : NodeClass}
    {children children' : List Element} (hk : k' = .nodeImpl ↔ k = .nodeImpl)
    (he : b'.externalName = b.externalName) (hl : b'.nodeLevel = b.nodeLevel) :
    (node n b' t k' children').link = (node n b t k children).link := by
  have hport : (node n b' t k' children').isPort = (node n b t k children).isPort := by
    cases k <;> cases k' <;> simp_all [isPort]
  rw [link, link, hport]
  simp only [base, he, hl]
  rfl

end Element

open Element

section

variable {cs : ControlSystem}

theorem Base.level_under {b : Base} {parents : List Link} (pParent : Link) (above : List Link)
    (h : parents = pParent :: above) : (b.under parents).nodeLevel = pParent.nodeLevel + 1 := by
  rw [h]
  rfl

@[simp] theorem Base.externalName_under (b : Base) (parents : List Link) :
    (b.under parents).externalName = b.externalName := by
  cases parents <;> rfl

/-- What the walk makes of an element. -/
structure Initialized (cs : Naming) (parents : List Link) (e e' : Element) : Prop where
  named : Named cs parents e'
  nodeLevel : e'.base.nodeLevel = (e.base.under parents).nodeLevel
  entries : ∀ depth, e'.entries depth = e.entries depth

mutual

theorem initializeElement_ok {parents : List Link} {port : Option Nat} :
    (e : Element) → ∀ {e' w w'}, initializeElement cs parents port e w = .ok e' w' →
      Initialized cs.toNaming parents e e'
  | .inputPV ptr name b t, e', w, w', h => by
    obtain ⟨b1, w1, w2, hb, rfl⟩ := initializeElement_inputPV h
    obtain ⟨s, sPort, hs, hsPort, rfl⟩ := baseInitialize_ok hb
    exact ⟨.of_children rfl Base.level_under hs hsPort fun c hc => (nomatch hc), rfl,
      fun depth => by simp [Element.entries]⟩
  | .outputPV ptr name b t, e', w, w', h => by
    obtain ⟨b1, w1, w2, hb, rfl⟩ := initializeElement_outputPV h
    obtain ⟨s, sPort, hs, hsPort, rfl⟩ := baseInitialize_ok hb
    exact ⟨.of_children rfl Base.level_under hs hsPort fun c hc => (nomatch hc), rfl,
      fun depth => by simp [Element.entries]⟩
  | .node name b t k children, e', w, w', h => by
    obtain ⟨k1, b1, children1, w1, w2, w3, w4, hk, hb, hc, rfl⟩ := initializeElement_node h
    obtain ⟨s, sPort, hs, hsPort, rfl⟩ := baseInitialize_ok hb
    obtain ⟨hnamed, hentries⟩ := initializeChildren_ok children hc
    refine ⟨.of_children ?_ Base.level_under hs hsPort hnamed, rfl,
      fun depth => by simp [Element.entries, hentries]⟩
    exact link_node hk rfl rfl
  | .stateMachine b m children, e', w, w', h => by
    obtain ⟨b1, m1, children1, w1, w2, w3, hb, hc, rfl⟩ := initializeElement_stateMachine h
    obtain ⟨s, sPort, hs, hsPort, rfl⟩ := baseInitialize_ok hb
    obtain ⟨hnamed, hentries⟩ := initializeChildren_ok children hc
    exact ⟨.of_children rfl Base.level_under hs hsPort hnamed, rfl,
      fun depth => by simp [Element.entries, hentries]⟩

theorem initializeChildren_ok {parents : List Link} {port : Option Nat} :
    (children : List Element) → ∀ {children' w w'},
      initializeChildren cs parents port children w = .ok children' w' →
      (∀ c ∈ children', Named cs.toNaming parents c) ∧
      ∀ depth, entriesAll depth children' = entriesAll depth children
  | [], children', w, w', h => by
    obtain ⟨rfl, -⟩ := pure_eq_ok.mp h
    exact ⟨fun c hc => (nomatch hc), fun _ => rfl⟩
  | c :: children, children', w, w', h => by
    simp only [initializeChildren, bind_eq_ok, pure_eq_ok] at h
    obtain ⟨c1, w1, hc, children1, w2, hcs, rfl, -⟩ := h
    have hinit := initializeElement_ok c hc
    obtain ⟨hnamed, hentries⟩ := initializeChildren_ok children hcs
    refine ⟨fun d hd => ?_, fun depth => by rw [entriesAll, entriesAll, hinit.entries, hentries]⟩
    rcases List.mem_cons.mp hd with rfl | hd
    · exact hinit.named
    · exact hnamed d hd

end

end

/-! ## The composition -/

/-- The external names of a tree are composed of separators by depth and of the names of the
elements; those from a port, of what the elements below the nearest port add. -/
def Composed (cs : Naming) (root : Element) : Prop :=
  ∃ separator name rootName, cs.Gives separator name rootName ∧
    ∀ path e, root.Below path e →
      e.base.cachedFullExternalName = separator 0 ++ rootName root.base.externalName ++
        parts separator name 1 path ∧
      ((∀ before x, before <+: path → root.Below before x → x.isPort = false) →
        e.base.cachedFullExternalNameFromPort = e.base.cachedFullExternalName) ∧
      ∀ toPort port fromPort, path = toPort ++ fromPort → root.Below toPort port →
        port.isPort = true → (∀ x ∈ fromPort, x.isPort = false) →
        e.base.cachedFullExternalNameFromPort =
          parts separator name (toPort.length + 1) fromPort ∧
        e.base.cachedFullExternalName =
          port.base.cachedFullExternalName ++ e.base.cachedFullExternalNameFromPort

/-- The levels below the root have the separators of the depths, where there is a name to
separate. -/
def LevelsAgree (cs : Naming) (root : Element) : Prop :=
  ∀ depth role externalName, (depth, role, externalName) ∈ root.entries 0 → 0 < depth →
    role.buildName cs externalName ≠ .ok "" →
    cs.getSeparator (root.base.nodeLevel + depth) = cs.getSeparator depth

section

variable {cs : Naming} {root : Element} {separator : Nat → String}
  {name : Role → String → String} {rootName : String → String}

theorem fullExternalName_eq (h : Named cs [] root) (hg : cs.Gives separator name rootName)
    {path : List Element} {e : Element} (he : root.Below path e) :
    e.base.cachedFullExternalName = separator 0 ++ rootName root.base.externalName ++
      parts (fun d => separator (root.base.nodeLevel + d)) name 1 path := by
  have hname := h.fullExternalName path e he
  rw [buildFullExternalName, buildFullExternalNameOf_false hg,
    linkParts_eq root.base.nodeLevel 1 (h.levels path e he)] at hname
  exact (Except.ok.inj hname).symm

theorem fullExternalNameFromPort_eq (h : Named cs [] root)
    (hg : cs.Gives separator name rootName) {toPort fromPort : List Element} {e port : Element}
    (he : root.Below (toPort ++ fromPort) e) (hp : root.Below toPort port)
    (hport : port.isPort = true) (hfrom : ∀ x ∈ fromPort, x.isPort = false) :
    e.base.cachedFullExternalNameFromPort =
      parts (fun d => separator (root.base.nodeLevel + d)) name (toPort.length + 1) fromPort := by
  have hname := h.fullExternalNameFromPort _ e he
  obtain ⟨above, habove⟩ := hp.links []
  have hlinks : ∀ l ∈ (fromPort.map link).reverse, l.isPort = false := by
    intro l hl
    obtain ⟨x, hx, rfl⟩ := List.mem_map.mp (List.mem_reverse.mp hl)
    exact hfrom x hx
  have hlevels := (h.levels _ e he).append
  rw [Nat.add_assoc, Nat.add_comm 1] at hlevels
  rw [List.map_append, List.reverse_append, List.append_assoc, habove,
    buildFullExternalNameFromPort_port hg hport above hlinks,
    linkParts_eq root.base.nodeLevel _ hlevels] at hname
  exact (Except.ok.inj hname).symm

theorem fullExternalNameFromPort_eq_of_no_port (h : Named cs [] root) {path : List Element}
    {e : Element} (he : root.Below path e)
    (hno : ∀ before x, before <+: path → root.Below before x → x.isPort = false) :
    e.base.cachedFullExternalNameFromPort = e.base.cachedFullExternalName := by
  have hlinks : ∀ l ∈ (path.map link).reverse ++ [root.link], l.isPort = false := by
    intro l hl
    rcases List.mem_append.mp hl with hl | hl
    · obtain ⟨x, hx, rfl⟩ := List.mem_map.mp (List.mem_reverse.mp hl)
      obtain ⟨before, rest, rfl⟩ := List.append_of_mem hx
      refine hno (before ++ [x]) x ⟨rest, by simp⟩ he.of_append
    · rw [List.mem_singleton.mp hl]
      exact hno [] root (List.nil_prefix ..) (.refl root)
  have hname := h.fullExternalNameFromPort path e he
  rw [buildFullExternalNameFromPort_eq hlinks, h.fullExternalName path e he] at hname
  exact (Except.ok.inj hname).symm

/-- Where the levels agree the separators of the levels do as well as those of the depths. -/
theorem parts_of_agree (hagree : ∀ depth role externalName,
      (depth, role, externalName) ∈ root.entries 0 → 0 < depth → name role externalName ≠ "" →
      separator (root.base.nodeLevel + depth) = separator depth)
    (before : List Element) {path : List Element} {e : Element}
    (he : root.Below (before ++ path) e) :
    parts (fun d => separator (root.base.nodeLevel + d)) name (before.length + 1) path =
      parts separator name (before.length + 1) path := by
  induction path generalizing before with
  | nil => rfl
  | cons x path ih =>
    have hx : root.Below (before ++ [x]) x := he.of_append
    have hpart : part (fun d => separator (root.base.nodeLevel + d)) name (before.length + 1) x =
        part separator name (before.length + 1) x := by
      unfold part
      split
      · rfl
      · next hne =>
        have hentry := hx.mem_entries 0
        rw [Nat.zero_add, List.length_append, List.length_singleton] at hentry
        exact congrArg (· ++ _) (hagree _ _ _ hentry (Nat.succ_pos _) hne)
    have hrest := ih (before ++ [x]) (by simpa using he)
    rw [List.length_append] at hrest
    rw [parts, parts, hpart]
    exact congrArg (_ ++ ·) hrest

theorem part_of_parts {separator' : Nat → String} {s : String} {init : List Element}
    {e : Element} (hinit : s ++ parts separator name 1 init = s ++ parts separator' name 1 init)
    (h : s ++ parts separator name 1 (init ++ [e]) = s ++ parts separator' name 1 (init ++ [e])) :
    part separator name (1 + init.length) e = part separator' name (1 + init.length) e := by
  rw [String.append_right_inj] at hinit h
  rw [parts_append, parts_append, hinit, String.append_right_inj] at h
  simpa [parts] using h

end

theorem sectionMissing_of_named {cs : Naming} {root : Element} (h : Named cs [] root) :
    cs.sectionMissing = false := by
  cases hm : cs.sectionMissing with
  | false => rfl
  | true =>
    have hname := h.fullExternalName [] root (.refl root)
    rw [List.map_nil, List.reverse_nil, List.nil_append, buildFullExternalName,
      buildFullExternalNameOf, Naming.getSeparator_missing hm] at hname
    cases hname

theorem Initialized.composed_iff {cs : Naming} {root root' : Element}
    (h : Initialized cs [] root root') : Composed cs root' ↔ LevelsAgree cs root := by
  obtain ⟨hnamed, hlevel, hentries⟩ := h
  replace hlevel : root'.base.nodeLevel = root.base.nodeLevel := hlevel
  constructor
  · rintro ⟨separator, name, rootName, hg, hcomposed⟩ depth role externalName hentry hpos hne
    rw [← hentries] at hentry
    obtain ⟨path, e, he, heq⟩ := below_of_mem_entries 0 root' hentry
    obtain ⟨rfl, rfl, rfl⟩ : depth = path.length ∧ role = e.role ∧
        externalName = e.base.externalName := by simpa using heq
    obtain ⟨init, parent, rfl, hparent⟩ := he.exists_concat (List.ne_nil_of_length_pos hpos)
    have hinit :=
      (fullExternalName_eq hnamed hg hparent).symm.trans (hcomposed init parent hparent).1
    have hpath := (fullExternalName_eq hnamed hg he).symm.trans (hcomposed _ e he).1
    have hpart := part_of_parts hinit hpath
    rw [hg.buildName, ne_eq, Except.ok.injEq] at hne
    rw [part, part, if_neg hne, if_neg hne, String.append_left_inj, hlevel] at hpart
    rw [List.length_append, List.length_singleton, Nat.add_comm init.length 1, hg.getSeparator,
      hg.getSeparator, hpart]
  · intro hlevels
    obtain ⟨separator, name, rootName, hg⟩ := Naming.exists_gives (sectionMissing_of_named hnamed)
    have hagree : ∀ depth role externalName, (depth, role, externalName) ∈ root'.entries 0 →
        0 < depth → name role externalName ≠ "" →
        separator (root'.base.nodeLevel + depth) = separator depth := by
      intro depth role externalName hentry hpos hne
      rw [hentries] at hentry
      have hsep := hlevels depth role externalName hentry hpos (by
        rw [hg.buildName, ne_eq, Except.ok.injEq]
        exact hne)
      rw [hg.getSeparator, hg.getSeparator, Except.ok.injEq] at hsep
      rw [hlevel, hsep]
    have hname : ∀ path e, root'.Below path e → e.base.cachedFullExternalName =
        separator 0 ++ rootName root'.base.externalName ++ parts separator name 1 path := by
      intro path e he
      rw [fullExternalName_eq hnamed hg he]
      exact congrArg (_ ++ ·) (parts_of_agree hagree [] he)
    refine ⟨separator, name, rootName, hg, fun path e he => ⟨hname path e he,
      fullExternalNameFromPort_eq_of_no_port hnamed he, ?_⟩⟩
    rintro toPort port fromPort rfl hp hport hfrom
    have hfromPort : e.base.cachedFullExternalNameFromPort =
        parts separator name (toPort.length + 1) fromPort :=
      (fullExternalNameFromPort_eq hnamed hg he hp hport hfrom).trans (parts_of_agree hagree _ he)
    refine ⟨hfromPort, ?_⟩
    rw [hname _ e he, hname _ port hp, hfromPort, parts_append, Nat.add_comm 1,
      ← String.append_assoc]

/-- The levels of a tree whose root never had a parent are the depths. -/
theorem levelsAgree_of_root {cs : Naming} {root : Element} (h : root.base.nodeLevel = 0) :
    LevelsAgree cs root := by
  intro depth role externalName _ _ _
  rw [h, Nat.zero_add]

/-- **The names of an initialized tree are composed exactly when the levels below the root have
the separators of the depths.** -/
theorem externalNames_composed {cs : ControlSystem} {pDeviceObject : Nat} {root root' : Element}
    {w w' : World} (h : initializeRootNode cs pDeviceObject root w = .ok root' w') :
    Composed cs.toNaming root' ↔ LevelsAgree cs.toNaming root := by
  obtain ⟨w1, hwalk⟩ := initializeRootNode_ok h
  exact (initializeElement_ok root hwalk).composed_iff

/-- A PV in a port below the root. -/
def portBelowRoot : Element :=
  .node "root" (.construct "root" []) .generic .nodeImpl
    [.node "port" (.construct "port" []) .generic (.portImpl none)
      [.inputPV 1 "pv" (.construct "pv" inputCommands) .generic]]

theorem externalNames_composed_portBelowRoot : ∃ root' w',
    initializeRootNode testControlSystem 0 portBelowRoot .empty = .ok root' w' ∧
    Composed testControlSystem.toNaming root' := by
  have h : ∃ root' w', initializeRootNode testControlSystem 0 portBelowRoot .empty =
    .ok root' w' := ⟨_, _, rfl⟩
  obtain ⟨root', w', h⟩ := h
  exact ⟨root', w', h, (externalNames_composed h).mpr (levelsAgree_of_root rfl)⟩

/-- A node without children. -/
def leaf (n : String) : Element := .node n (.construct n []) .generic .nodeImpl []

/-- What is left of the child `b` of a node `a` when `a` is destroyed. -/
def formerChild : Base := ⟨"b", false, 1, "a-b", "a-b", "/a-b", "/a-b", []⟩

/-- A node is initialized as a child. Its parent is destroyed, it gets a child and is initialized
as a root: it has kept its level, and the names of the new tree are not composed. -/
theorem externalNames_not_composed :
    (∃ a' w, initializeRootNode testControlSystem 0
        (.node "a" (.construct "a" []) .generic .nodeImpl [leaf "b"]) .empty = .ok a' w ∧
      a'.children = [.node "b" { formerChild with hasParent := true } .generic .nodeImpl []]) ∧
    ∀ w, ∃ b' w', initializeRootNode testControlSystem 1
        (.node "b" formerChild .generic .nodeImpl [leaf "c"]) w = .ok b' w' ∧
      b'.children.map (·.base.cachedFullExternalName) = ["/b.c"] ∧
      ¬Composed testControlSystem.toNaming b' := by
  refine ⟨⟨_, _, rfl, rfl⟩, fun w => ?_⟩
  have h : ∃ b' w', initializeRootNode testControlSystem 1
      (.node "b" formerChild .generic .nodeImpl [leaf "c"]) w = .ok b' w' ∧
      b'.children.map (·.base.cachedFullExternalName) = ["/b.c"] := ⟨_, _, rfl, rfl⟩
  obtain ⟨b', w', h, hnames⟩ := h
  refine ⟨b', w', h, hnames, fun hc => ?_⟩
  obtain ⟨w1, hwalk⟩ := initializeRootNode_ok h
  have hlevels := (initializeElement_ok _ hwalk).composed_iff.mp hc
  have hsep : (Except.ok "." : Except Exn String) = .ok "-" :=
    hlevels 1 (.node .generic) "c" (by decide) Nat.one_pos fun hn => nomatch Except.ok.inj hn
  exact absurd (Except.ok.inj hsep) (by decide)

end Nds3
