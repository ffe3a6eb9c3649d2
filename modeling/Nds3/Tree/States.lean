import Nds3.Tree.GlobalState

/-!
# The states of the machines, beside the tree

The members of the machines change while the tree stays. Here they are kept apart from it: a machine
is given by the path to its node, and `globalState` is `StateMachineImpl::getGlobalState` on members
that have been read. It depends on the members it reads only (`globalState_congr`).
-/

namespace Nds3

/-- A state that a machine can be in (`System.known_localState`). -/
abbrev KnownState := { state : State // 0 < state.toInt }

/-- The members of all machines, by the path to the node of the machine: the indices of the children
on the way from the root. -/
structure Members where
  localState : List Nat → KnownState
  stateTimestamp : List Nat → Timespec

inductive Member where
  | localState (p : List Nat)
  | stateTimestamp (p : List Nat)

namespace Members

def machine (x : Members) (p : List Nat) : MachineState :=
  ⟨(x.localState p).1, x.stateTimestamp p, (x.localState p).2⟩

/-- The copy of a member into a local variable. -/
def load (seen x : Members) : Member → Members
  | .localState p =>
    { seen with localState := Function.update seen.localState p (x.localState p) }
  | .stateTimestamp p =>
    { seen with stateTimestamp := Function.update seen.stateTimestamp p (x.stateTimestamp p) }

/-- Both members are assigned. -/
def set (x : Members) (p : List Nat) (state : KnownState) (t : Timespec) : Members :=
  ⟨Function.update x.localState p state, Function.update x.stateTimestamp p t⟩

def Agree (x y : Members) : Member → Prop
  | .localState p => x.localState p = y.localState p
  | .stateTimestamp p => x.stateTimestamp p = y.stateTimestamp p

variable {x y seen : Members} {m n : Member} {p : List Nat}

theorem agree_load (h : m = n ∨ Agree seen x m) : Agree (seen.load x n) x m := by
  cases m with
  | localState p =>
    cases n with
    | localState q =>
      by_cases hpq : p = q
      · subst hpq
        simp [load, Agree]
      · simpa [load, Agree, hpq] using h
    | stateTimestamp q => simpa [load, Agree] using h
  | stateTimestamp p =>
    cases n with
    | localState q => simpa [load, Agree] using h
    | stateTimestamp q =>
      by_cases hpq : p = q
      · subst hpq
        simp [load, Agree]
      · simpa [load, Agree, hpq] using h

theorem machine_congr (hs : Agree x y (.localState p)) (ht : Agree x y (.stateTimestamp p)) :
    x.machine p = y.machine p := by
  simp only [Agree] at hs ht
  simp only [machine, hs, ht]

end Members

namespace Element

/-- The children of the node at the end of the path. -/
def childrenAt : List Nat → List Element → List Element
  | [], children => children
  | i :: p, children => (children[i]?.map fun c => childrenAt p c.children).getD []

mutual

/-- The tree with the machines in other states. -/
def withStates (f : List Nat → MachineState) : Element → Element
  | node n b t k children => node n b t k (childrenWith f 0 children)
  | e => e

/-- The children of a node, from the `i`-th on. -/
def childrenWith (f : List Nat → MachineState) (i : Nat) : List Element → List Element
  | [] => []
  | stateMachine b _ cs :: children => stateMachine b (f []) cs :: childrenWith f (i + 1) children
  | c :: children => c.withStates (fun p => f (i :: p)) :: childrenWith f (i + 1) children

end

mutual

/-- The machines that `getGlobalState` reads on a node, in their order. -/
def machinesRead : Element → List (List Nat)
  | node _ _ _ _ children =>
    ((pStateMachine children).map fun _ => []).toList ++ machinesBelow 0 children
  | _ => []

/-- Those that the loop of `getChildrenState` reads. -/
def machinesBelow (i : Nat) : List Element → List (List Nat)
  | [] => []
  | c :: children => c.machinesRead.map (i :: ·) ++ machinesBelow (i + 1) children

end

/-- The members that `StateMachineImpl::getGlobalState` reads on the machine of a node. -/
def reads (p : List Nat) (children : List Element) : List Member :=
  (p :: (machinesBelow 0 children).map (p ++ ·)).flatMap
    fun q => [.stateTimestamp q, .localState q]

/-- `StateMachineImpl::getGlobalState` on the machine of a node, from what has been read. -/
def globalState (g : List Nat → Vars) (p : List Nat) (children : List Element) (x : Members) :
    Vars :=
  machineGetGlobalState g (x.machine p) (childrenWith (fun q => x.machine (p ++ q)) 0 children)

section

variable {f f' : List Nat → MachineState} {i : Nat} {children : List Element} {c : Element}

theorem isNode_withStates (c : Element) : (c.withStates f).isNode = c.isNode := by
  cases c <;> rfl

theorem childrenWith_cons (h : c.machine? = none) : childrenWith f i (c :: children) =
    c.withStates (fun p => f (i :: p)) :: childrenWith f (i + 1) children := by
  cases c with
  | stateMachine => cases h
  | _ => rfl

theorem pStateMachine_childrenWith :
    pStateMachine (childrenWith f i children) = (pStateMachine children).map fun _ => f [] := by
  induction children generalizing i with
  | nil => rfl
  | cons c cs ih =>
    cases c with
    | stateMachine => rfl
    | _ => exact ih

theorem name_childrenWith : (childrenWith f i children).map name = children.map name := by
  induction children generalizing i with
  | nil => rfl
  | cons c cs ih =>
    cases c with
    | stateMachine => exact congrArg ("StateMachine" :: ·) ih
    | _ => exact congrArg (_ :: ·) ih

theorem sorted_childrenWith (h : Sorted children) : Sorted (childrenWith f i children) := by
  rw [Sorted, ← List.pairwise_map (f := name) (R := (· < ·)), name_childrenWith,
    List.pairwise_map]
  exact h

end

mutual

theorem wellFormed_withStates (f : List Nat → MachineState) :
    ∀ {e : Element}, e.WellFormed → (e.withStates f).WellFormed
  | node _ _ _ _ _, .node hs hcs =>
    .node (sorted_childrenWith hs) (wellFormed_childrenWith f 0 hcs)
  | inputPV _ _ _ _, h => h
  | outputPV _ _ _ _, h => h
  | stateMachine _ _ _, h => h

theorem wellFormed_childrenWith (f : List Nat → MachineState) (i : Nat) :
    ∀ {children : List Element}, (∀ c ∈ children, c.WellFormed) →
      ∀ c ∈ childrenWith f i children, c.WellFormed
  | [], _, _, hc => by cases hc
  | d :: ds, h, c, hc => by
    have hd := h d (List.mem_cons_self ..)
    have hds : ∀ e ∈ ds, e.WellFormed := fun e he => h e (List.mem_cons_of_mem _ he)
    cases hm : d.machine? with
    | none =>
      rw [childrenWith_cons hm] at hc
      rcases List.mem_cons.mp hc with rfl | hc
      · exact wellFormed_withStates _ hd
      · exact wellFormed_childrenWith f (i + 1) hds c hc
    | some m =>
      cases d with
      | stateMachine b _ cs =>
        rcases List.mem_cons.mp hc with rfl | hc
        · cases hd with
          | stateMachine hs hcs => exact .stateMachine hs hcs
        · exact wellFormed_childrenWith f (i + 1) hds c hc
      | _ => cases hm

end

mutual

/-- `getGlobalState` depends on the machines it reads only. -/
theorem getGlobalState_congr {f f' : List Nat → MachineState} (g : List Nat → Vars) (v : Vars) :
    ∀ {e : Element}, (∀ p ∈ e.machinesRead, f p = f' p) →
      (e.withStates f).getGlobalState g v = (e.withStates f').getGlobalState g v
  | node n b t k children, h => by
    have hbelow : ∀ p ∈ machinesBelow 0 children, f p = f' p :=
      fun p hp => h p (List.mem_append_right _ hp)
    simp only [withStates, getGlobalState, pStateMachine_childrenWith]
    cases hm : pStateMachine children with
    | none => exact scanChildren_congr g 0 _ hbelow
    | some m =>
      have hown : f [] = f' [] := h [] (List.mem_append_left _ (by rw [hm]; exact .head _))
      simp only [Option.map_some]
      rw [hown, scanChildren_congr _ 0 _ hbelow]
  | inputPV _ _ _ _, _ => rfl
  | outputPV _ _ _ _, _ => rfl
  | stateMachine _ _ _, _ => rfl

theorem scanChildren_congr {f f' : List Nat → MachineState} (g : List Nat → Vars) (i : Nat)
    (v : Vars) : ∀ {children : List Element}, (∀ p ∈ machinesBelow i children, f p = f' p) →
      scanChildren g i v (childrenWith f i children) =
        scanChildren g i v (childrenWith f' i children)
  | [], _ => rfl
  | c :: children, h => by
    have hrest : ∀ p ∈ machinesBelow (i + 1) children, f p = f' p :=
      fun p hp => h p (List.mem_append_right _ hp)
    have hc : ∀ p ∈ c.machinesRead, f (i :: p) = f' (i :: p) :=
      fun p hp => h _ (List.mem_append_left _ (List.mem_map_of_mem hp))
    cases hm : c.machine? with
    | none =>
      rw [childrenWith_cons hm, childrenWith_cons hm, scanChildren, scanChildren,
        isNode_withStates, isNode_withStates, getGlobalState_congr _ _ hc,
        scanChildren_congr g (i + 1) _ hrest]
    | some m =>
      cases c with
      | stateMachine b _ cs => exact scanChildren_congr g (i + 1) v hrest
      | _ => cases hm

end

section

variable {p : List Nat} {children : List Element} {x y : Members}

theorem globalState_congr (g : List Nat → Vars) (h : ∀ m ∈ reads p children, x.Agree y m) :
    globalState g p children x = globalState g p children y := by
  have hmachine : ∀ q, q = p ∨ q ∈ (machinesBelow 0 children).map (p ++ ·) →
      x.machine q = y.machine q := by
    intro q hq
    have hmem : ∀ m ∈ [Member.stateTimestamp q, Member.localState q], m ∈ reads p children :=
      fun m hm => List.mem_flatMap.mpr ⟨q, List.mem_cons.mpr hq, hm⟩
    exact Members.machine_congr (h _ (hmem _ (by simp))) (h _ (hmem _ (by simp)))
  unfold globalState machineGetGlobalState getChildrenState
  rw [hmachine p (.inl rfl), scanChildren_congr _ 0 _ fun q hq =>
    hmachine _ (.inr (List.mem_map_of_mem hq))]

theorem isGlobalState_globalState (g : List Nat → Vars) (hs : Sorted children)
    (hcs : ∀ c ∈ children, c.WellFormed) (hm : (pStateMachine children).isSome = true) :
    IsGlobalState (childrenWith (fun q => x.machine (p ++ q)) 0 children)
      (globalState g p children x) := by
  obtain ⟨m, hm⟩ := Option.isSome_iff_exists.mp hm
  let e := (node "" (.construct "" []) .generic .nodeImpl children).withStates
    fun q => x.machine (p ++ q)
  have he : e.WellFormed := wellFormed_withStates _ (.node hs hcs)
  have hown : pStateMachine e.children = some (x.machine p) := by
    refine pStateMachine_childrenWith.trans ?_
    rw [hm, Option.map_some, List.append_nil]
  exact ((Answers.machine g hown).highest he).isGlobalState

theorem wellFormed_childrenAt (hs : Sorted children) (hcs : ∀ c ∈ children, c.WellFormed)
    (p : List Nat) :
    Sorted (childrenAt p children) ∧ ∀ c ∈ childrenAt p children, c.WellFormed := by
  induction p generalizing children with
  | nil => exact ⟨hs, hcs⟩
  | cons i p ih =>
    rw [childrenAt]
    cases hi : children[i]? with
    | none => exact ⟨List.Pairwise.nil, fun c hc => by cases hc⟩
    | some c =>
      obtain ⟨hs', hcs'⟩ := (hcs c (List.mem_of_getElem? hi)).children
      exact ih hs' hcs'

end

end Element

end Nds3
