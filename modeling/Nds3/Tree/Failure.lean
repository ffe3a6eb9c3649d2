import Nds3.Tree.Initialize

/-!
# Failed initializations

Nothing that `initializeRootNode` has registered is taken back when it throws. Every command stays
registered, so a call that fails leaves the registrations as they were exactly when it fails before
the root has registered the first of its commands.
-/

namespace Nds3

open Effect

/-! ## What initialization does to the world -/

/-- The relation holds of a world and what any call of the walk makes of it. -/
structure Closed (R : World → World → Prop) : Prop where
  refl : ∀ w, R w w
  trans : ∀ w1 w2 w3, R w1 w2 → R w2 w3 → R w1 w3
  registerCommand : ∀ w fullName command,
    R w { w with commands := w.commands ++ [(fullName, command)] }
  registerPV : ∀ w pInterface pv,
    R w { w with registeredPVs := w.registeredPVs ++ [(pInterface, pv)] }
  registerInputPV : ∀ w names p, R w { w with factory := (w.factory.registerInputPV names p).1 }
  registerOutputPV : ∀ w names p, R w { w with factory := (w.factory.registerOutputPV names p).1 }
  getNewInterface : ∀ w, R w { w with newInterface := w.newInterface + 1 }

namespace Closed

variable {cs : ControlSystem} {R : World → World → Prop} (hR : Closed R)
include hR

theorem pure {α : Type} (a : α) : Moves R (Pure.pure a : Init α) := Moves.pure hR.refl a

theorem bind {α β : Type} {m : Init α} {f : α → Init β} (hm : Moves R m)
    (hf : ∀ a, Moves R (f a)) : Moves R (m >>= f) := Moves.bind hR.refl hR.trans hm hf

theorem forM {α : Type} {f : α → Init PUnit} (hf : ∀ a, Moves R (f a)) (as : List α) :
    Moves R (as.forM f) := Moves.forM hR.refl hR.trans hf as

theorem throw {α : Type} (e : Abort) : Moves R (MonadExcept.throw e : Init α) :=
  Moves.throw hR.refl e

theorem lift {α : Type} (x : Except Exn α) : Moves R (Init.lift x) := by
  cases x with
  | ok a => exact hR.pure a
  | error e => exact hR.throw _

theorem call {answer : World → Option Exn} {effect : World → World}
    (he : ∀ w, R w (effect w)) : Moves R (Init.call answer effect) := by
  intro w
  simp only [after, Init.call]
  cases answer w with
  | none => exact he w
  | some e => exact hR.refl w

omit hR in
theorem registry {operation : NdsFactory → NdsFactory × Except Exn Unit}
    (he : ∀ w : World, R w { w with factory := (operation w.factory).1 }) :
    Moves R (Init.registry operation) := by
  intro w
  have h := he w
  cases ho : operation w.factory with
  | mk f r =>
    rw [ho] at h
    cases r <;> simpa only [after, Init.registry, ho] using h

theorem baseInitialize (path : List Link) (b : Base) : Moves R (baseInitialize cs path b) :=
  hR.bind (hR.lift _) fun _ => hR.bind (hR.lift _) fun _ =>
    hR.bind (hR.forM (fun _ => hR.call fun _ => hR.registerCommand ..) _) fun _ => hR.pure _

theorem pvInitialize (path : List Link) (port : Option Nat) (pv : PVPointer) (b : Base) :
    Moves R (pvInitialize cs path port pv b) := by
  refine hR.bind (hR.baseInitialize path b) fun b' => ?_
  cases port with
  | none => exact hR.throw _
  | some i => exact hR.bind (hR.call fun _ => hR.registerPV ..) fun _ => hR.pure _

theorem createInterface (path : List Link) (k : NodeClass) :
    Moves R (createInterface cs path k) := by
  intro w
  by_cases hk : k = .portImpl none
  · cases ha : cs.getNewInterface w (buildFullName path) with
    | none => simpa only [after, Nds3.createInterface, if_pos hk, ha] using hR.getNewInterface w
    | some e => simpa only [after, Nds3.createInterface, if_pos hk, ha] using hR.refl w
  · simpa only [after, Nds3.createInterface, if_neg hk] using hR.refl w

theorem terminateRegistration (k : NodeClass) : Moves R (terminateRegistration cs k) := by
  rcases k with _ | _ | i
  · exact hR.pure _
  · exact hR.pure _
  · exact hR.call hR.refl

theorem pushState (path : List Link) (port : Option Nat) : Moves R (pushState cs path port) := by
  refine hR.bind (fun w => hR.lift (cs.getTimestamp w path) w) fun ts => ?_
  cases port with
  | none => exact hR.throw _
  | some i => exact hR.bind (hR.call hR.refl) fun _ => hR.pure _

mutual

theorem initializeElement (parents : List Link) (port : Option Nat) :
    (e : Element) → Moves R (initializeElement cs parents port e)
  | .inputPV .. =>
    hR.bind (hR.pvInitialize _ _ _ _) fun _ =>
      hR.bind (registry fun _ => hR.registerInputPV ..) fun _ => hR.pure _
  | .outputPV .. =>
    hR.bind (hR.pvInitialize _ _ _ _) fun _ =>
      hR.bind (registry fun _ => hR.registerOutputPV ..) fun _ => hR.pure _
  | .node _ _ _ _ children =>
    hR.bind (hR.createInterface _ _) fun _ => hR.bind (hR.baseInitialize _ _) fun _ =>
      hR.bind (hR.forM (fun _ => hR.lift _) _) fun _ =>
        hR.bind (initializeChildren _ _ children) fun _ =>
          hR.bind (hR.terminateRegistration _) fun _ => hR.pure _
  | .stateMachine _ _ children =>
    hR.bind (hR.baseInitialize _ _) fun _ => hR.bind (hR.forM (fun _ => hR.lift _) _) fun _ =>
      hR.bind (initializeChildren _ _ children) fun _ =>
        hR.bind (hR.pushState _ _) fun _ => hR.pure _

theorem initializeChildren (parents : List Link) (port : Option Nat) :
    (children : List Element) → Moves R (initializeChildren cs parents port children)
  | [] => hR.pure _
  | pChild :: children =>
    hR.bind (initializeElement parents port pChild) fun _ =>
      hR.bind (initializeChildren parents port children) fun _ => hR.pure _

end

end Closed

/-! ## The first steps of the walk -/

/-- The class of a node; other elements have no interface. -/
def Element.nodeClass : Element → NodeClass
  | .node _ _ _ k _ => k
  | _ => .nodeImpl

theorem createInterface_nodeImpl (cs : ControlSystem) (path : List Link) :
    createInterface cs path .nodeImpl = pure .nodeImpl := rfl

theorem pvInitialize_none (cs : ControlSystem) (path : List Link) (pv : PVPointer) (b : Base) :
    pvInitialize cs path none pv b = (baseInitialize cs path b >>= fun _ => throw .terminate) := rfl

/-- A root first makes sure of its interface and then of its base. -/
theorem initializeElement_root (cs : ControlSystem) (root : Element) :
    ∃ rest : NodeClass → Base → Init Element, (∀ R, Closed R → ∀ k b, Moves R (rest k b)) ∧
      initializeElement cs [] none root = (do
        let k ← createInterface cs [root.link] root.nodeClass
        let b ← baseInitialize cs [root.link] root.base
        rest k b) := by
  cases root with
  | inputPV ptr name b t =>
    refine ⟨fun _ _ => throw .terminate, fun R hR _ _ => hR.throw _, ?_⟩
    simp only [initializeElement, pvInitialize_none, bind_assoc, Element.nodeClass,
      createInterface_nodeImpl, pure_bind]
    rfl
  | outputPV ptr name b t =>
    refine ⟨fun _ _ => throw .terminate, fun R hR _ _ => hR.throw _, ?_⟩
    simp only [initializeElement, pvInitialize_none, bind_assoc, Element.nodeClass,
      createInterface_nodeImpl, pure_bind]
    rfl
  | node name b t k children =>
    exact ⟨_, fun R hR k b => hR.bind (hR.forM (fun _ => hR.lift _) _) fun _ =>
      hR.bind (hR.initializeChildren _ _ children) fun _ =>
        hR.bind (hR.terminateRegistration _) fun _ => hR.pure _, rfl⟩
  | stateMachine b m children =>
    let path := [(Element.stateMachine b m children).link]
    refine ⟨fun _ b => do
      children.forM fun pChild => Init.lift (setParent pChild)
      let children ← initializeChildren cs path none children
      let m ← pushState cs path none
      return .stateMachine b m children, fun R hR k b => ?_, rfl⟩
    exact hR.bind (hR.forM (fun _ => hR.lift _) _) fun _ =>
      hR.bind (hR.initializeChildren _ _ children) fun _ =>
        hR.bind (hR.pushState _ _) fun _ => hR.pure _

theorem closed_commands : Closed fun w w' => w.commands <+: w'.commands where
  refl _ := List.prefix_rfl
  trans _ _ _ := List.IsPrefix.trans
  registerCommand _ _ _ := List.prefix_append ..
  registerPV _ _ _ := List.prefix_rfl
  registerInputPV _ _ _ := List.prefix_rfl
  registerOutputPV _ _ _ := List.prefix_rfl
  getNewInterface _ := List.prefix_rfl

/-- The command that every element registers first. -/
def firstCommand : Command := ⟨"setLogLevelDebug", "", 0⟩

/-- Of the commands of a node the first is refused, or it stays registered. -/
theorem forM_registerCommand (cs : ControlSystem) (fullName : String) (command : Command)
    (commands : List Command) (w : World) :
    (∃ e, cs.registerCommand w fullName command = some e ∧
      (command :: commands).forM (registerCommand cs fullName) w = .error (.throws e) w) ∨
    cs.registerCommand w fullName command = none ∧ w.commands ++ [(fullName, command)] <+:
      (after ((command :: commands).forM (registerCommand cs fullName)) w).commands := by
  cases ha : cs.registerCommand w fullName command with
  | some e =>
    refine .inl ⟨e, rfl, bind_of_error ?_⟩
    rw [registerCommand, Init.call, ha]
  | none =>
    have hfirst : after (registerCommand cs fullName command) w =
        { w with commands := w.commands ++ [(fullName, command)] } := by
      rw [registerCommand, after, Init.call, ha]
    have hrest : Moves (fun w w' => w.commands <+: w'.commands)
        (commands.forM (registerCommand cs fullName)) :=
      closed_commands.forM (fun _ => closed_commands.call fun _ =>
        closed_commands.registerCommand ..) _
    have hmove := Moves.after_bind closed_commands.refl (m := registerCommand cs fullName command)
      (fun _ => hrest) w
    rw [hfirst] at hmove
    exact .inr ⟨rfl, hmove⟩

theorem buildFullExternalName_root {cs : Naming} (h : cs.sectionMissing = false) (root : Link) :
    (∃ s, buildFullExternalName cs [root] = .ok s) ∧
    ∃ s, buildFullExternalNameFromPort cs [root] = .ok s := by
  obtain ⟨separator, name, rootName, hg⟩ := Naming.exists_gives h
  have hof : ∀ b, ∃ s, buildFullExternalNameOf cs b [root] = .ok s := by
    intro b
    rw [buildFullExternalNameOf, hg.getSeparator, hg.getRootNodeName]
    exact ⟨_, rfl⟩
  refine ⟨hof false, ?_⟩
  rw [buildFullExternalNameFromPort]
  split
  · exact ⟨_, rfl⟩
  · exact hof true

theorem baseInitialize_root (cs : ControlSystem) (root : Element) (w : World) :
    (cs.sectionMissing = true ∧ ∃ e,
      baseInitialize cs [root.link] root.base w = .error (.throws e) w) ∨
    cs.sectionMissing = false ∧
      ((∃ e, cs.registerCommand w root.name firstCommand = some e ∧
        baseInitialize cs [root.link] root.base w = .error (.throws e) w) ∨
      cs.registerCommand w root.name firstCommand = none ∧
        w.commands ++ [(root.name, firstCommand)] <+:
          (after (baseInitialize cs [root.link] root.base) w).commands) := by
  cases hm : cs.sectionMissing with
  | true =>
    refine .inl ⟨rfl, missingSection cs.namingRulesName, bind_of_error ?_⟩
    rw [buildFullExternalName, buildFullExternalNameOf, Naming.getSeparator_missing hm]
    rfl
  | false =>
    refine .inr ⟨rfl, ?_⟩
    obtain ⟨⟨s, hs⟩, ⟨sPort, hsPort⟩⟩ := buildFullExternalName_root hm root.link
    have hrun : baseInitialize cs [root.link] root.base w =
        ((firstCommand :: root.base.commands.tail).forM (registerCommand cs root.name) >>=
          fun _ => pure { root.base with
            cachedFullName := root.name
            cachedFullNameFromPort := buildFullNameFromPort [root.link]
            cachedFullExternalName := s
            cachedFullExternalNameFromPort := sPort }) w := by
      rw [baseInitialize, hs, hsPort]
      rfl
    rw [after, hrun]
    rcases forM_registerCommand cs root.name firstCommand root.base.commands.tail w with
      ⟨e, he, hrefused⟩ | ⟨hnone, hkept⟩
    · exact .inl ⟨e, he, bind_of_error hrefused⟩
    · exact .inr ⟨hnone, hkept.trans
        (Moves.after_bind closed_commands.refl (fun _ => closed_commands.pure _) w)⟩

/-- Nothing that initialization registers is registered in one of the worlds only. -/
structure World.SameRegistrations (w w' : World) : Prop where
  registeredInputPVs : w'.factory.registeredInputPVs = w.factory.registeredInputPVs
  registeredOutputPVs : w'.factory.registeredOutputPVs = w.factory.registeredOutputPVs
  commands : w'.commands = w.commands
  registeredPVs : w'.registeredPVs = w.registeredPVs
  heldNodes : w'.heldNodes = w.heldNodes

/-- The world in which the root has its interface. -/
def World.withInterface (w : World) (root : Element) : World :=
  if root.nodeClass = .portImpl none then { w with newInterface := w.newInterface + 1 } else w

theorem World.withInterface_same (w : World) (root : Element) :
    w.SameRegistrations (w.withInterface root) := by
  unfold withInterface
  split
  · exact ⟨rfl, rfl, rfl, rfl, rfl⟩
  · exact ⟨rfl, rfl, rfl, rfl, rfl⟩

/-- The reasons to fail before a command is registered. -/
inductive FailsEarly (cs : ControlSystem) (w : World) (root : Element) : Prop where
  | hasParent (h : root.base.hasParent = true)
  | getNewInterface (h : root.nodeClass = .portImpl none)
      (refused : (cs.getNewInterface w root.name).isSome)
  | sectionMissing (h : cs.sectionMissing = true)
  | registerCommand
      (refused : (cs.registerCommand (w.withInterface root) root.name firstCommand).isSome)

/-- A call fails at its check, or in the walk. -/
theorem initializeRootNode_error {cs : ControlSystem} {pDeviceObject : Nat} {root : Element}
    {w w' : World} {a : Abort}
    (h : initializeRootNode cs pDeviceObject root w = .error a w') :
    (root.base.hasParent = true ∧ w' = w) ∨
    (root.base.hasParent = false ∧ initializeElement cs [] none root w = .error a w') := by
  unfold initializeRootNode at h
  cases hp : root.base.hasParent with
  | true =>
    rw [hp] at h
    exact .inl ⟨rfl, (EStateM.Result.error.inj h).2.symm⟩
  | false =>
    rw [hp] at h
    refine .inr ⟨rfl, ?_⟩
    cases hw : initializeElement cs [] none root w with
    | ok root' w1 =>
      have hok := bind_of_ok (f := fun root' w => EStateM.Result.ok root' { w with
        heldNodes := Function.update w.heldNodes pDeviceObject
          (w.heldNodes pDeviceObject ++ [root']) }) hw
      exact nomatch h.symm.trans hok
    | error a1 w1 => exact (bind_of_error hw).symm.trans h

theorem createInterface_root (cs : ControlSystem) (root : Element) (w : World) :
    (∃ e, root.nodeClass = .portImpl none ∧ cs.getNewInterface w root.name = some e ∧
      createInterface cs [root.link] root.nodeClass w = .error (.throws e) w) ∨
    (¬(root.nodeClass = .portImpl none ∧ (cs.getNewInterface w root.name).isSome) ∧
      ∃ k, createInterface cs [root.link] root.nodeClass w = .ok k (w.withInterface root)) := by
  rw [createInterface, World.withInterface]
  split
  · next hk =>
    rw [show buildFullName [root.link] = root.name from rfl]
    cases cs.getNewInterface w root.name with
    | none => exact .inr ⟨by simp, _, rfl⟩
    | some e => exact .inl ⟨e, hk, rfl, rfl⟩
  · next hk => exact .inr ⟨fun h => hk h.1, _, rfl⟩

/-- **A call that throws leaves all registrations as they were exactly when it fails before the
root has registered its first command.** -/
theorem failed_initialization {cs : ControlSystem} {pDeviceObject : Nat} {root : Element}
    {w w' : World} {e : Exn}
    (h : initializeRootNode cs pDeviceObject root w = .error (.throws e) w') :
    w.SameRegistrations w' ↔ FailsEarly cs w root := by
  rcases initializeRootNode_error h with ⟨hp, rfl⟩ | ⟨hp, hwalk⟩
  · exact ⟨fun _ => .hasParent hp, fun _ => ⟨rfl, rfl, rfl, rfl, rfl⟩⟩
  obtain ⟨rest, hrest, heq⟩ := initializeElement_root cs root
  rw [heq] at hwalk
  rcases createInterface_root cs root w with ⟨e1, hk, he1, hci⟩ | ⟨hk, k, hci⟩
  · rw [bind_of_error hci] at hwalk
    obtain ⟨-, rfl⟩ := EStateM.Result.error.inj hwalk
    exact ⟨fun _ => .getNewInterface hk (by rw [he1]; rfl), fun _ => ⟨rfl, rfl, rfl, rfl, rfl⟩⟩
  rw [bind_of_ok hci] at hwalk
  rcases baseInitialize_root cs root (w.withInterface root) with
    ⟨hm, e1, hb⟩ | ⟨hm, ⟨e1, he1, hb⟩ | ⟨hc, hkept⟩⟩
  · rw [bind_of_error hb] at hwalk
    obtain ⟨-, rfl⟩ := EStateM.Result.error.inj hwalk
    exact ⟨fun _ => .sectionMissing hm, fun _ => w.withInterface_same root⟩
  · rw [bind_of_error hb] at hwalk
    obtain ⟨-, rfl⟩ := EStateM.Result.error.inj hwalk
    exact ⟨fun _ => .registerCommand (by rw [he1]; rfl), fun _ => w.withInterface_same root⟩
  -- the first command is registered, and stays so
  have hkept' := hkept.trans
    (Moves.after_bind closed_commands.refl (hrest _ closed_commands k) (w.withInterface root))
  rw [after_of_error hwalk, (w.withInterface_same root).commands] at hkept'
  constructor
  · intro hsame
    rw [hsame.commands] at hkept'
    have hlength := hkept'.length_le
    simp at hlength
  · intro hearly
    cases hearly with
    | hasParent h1 => exact nomatch hp.symm.trans h1
    | getNewInterface h1 h2 => exact absurd ⟨h1, h2⟩ hk
    | sectionMissing h1 => exact nomatch hm.symm.trans h1
    | registerCommand h1 => rw [hc] at h1; cases h1

/-- A port with two input PVs. -/
def twoInputs : Element :=
  .node "root" (.construct "root" []) .generic (.portImpl none)
    [.inputPV 1 "a" (.construct "a" Element.inputCommands) .generic,
      .inputPV 2 "b" (.construct "b" Element.inputCommands) .generic]

/-- A world in which the name of the second one is taken. -/
def World.taken : World :=
  { World.empty with factory := (NdsFactory.empty.registerInputPV (.ofPV "root-b") 3).1 }

/-- Naming rules in which there is no section to follow. -/
def ControlSystem.missingRules : ControlSystem :=
  { testControlSystem with namingRules := some ∅, namingRulesName := "rules" }

theorem failed_initialization_missingRules : ∃ w',
    initializeRootNode .missingRules 0 twoInputs .taken =
      .error (.throws (missingSection "rules")) w' ∧ World.taken.SameRegistrations w' := by
  have h : initializeRootNode .missingRules 0 twoInputs .taken =
      .error (.throws (missingSection "rules"))
        (after (initializeRootNode .missingRules 0 twoInputs) .taken) := rfl
  exact ⟨_, h, (failed_initialization h).mpr (.sectionMissing rfl)⟩

/-- The second PV cannot be registered, and the first one, whose tree is given up, stays in the
registry. -/
theorem failed_initialization_leaves : ∃ w',
    initializeRootNode testControlSystem 0 twoInputs .taken = .error (.throws
      ⟨.PVAlreadyDeclared, "The input PV with name root-b has already been registered"⟩) w' ∧
    World.taken.factory.registeredInputPVs.lookup "root-a" = none ∧
    w'.factory.registeredInputPVs.lookup "root-a" = some 1 :=
  ⟨after (initializeRootNode testControlSystem 0 twoInputs) .taken, rfl, rfl, rfl⟩

end Nds3
