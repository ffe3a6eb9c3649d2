import Nds3.Registry.Disconnect
import Nds3.Tree.Teardown

/-!
# Initialized and deinitialized again

Both walks come to the same PVs in the same order and under the same names, so what the first one
has entered in the registry and with the interfaces is what the second one takes out of them. The
registry is left as it was, whatever has been linked in between: the scan of a deregistration comes
to every input PV that stays registered.
-/

namespace Nds3

open Effect Element

namespace NdsFactory

/-! ## PVs that enter and leave the registry -/

def RegisteredAs (f : NdsFactory) (n : String) : PVPointer → Prop
  | .input p => f.registeredInputPVs.lookup n = some p
  | .output q => f.registeredOutputPVs.lookup n = some q

def LinkedTo (f : NdsFactory) (x : Nat) : PVPointer → Prop
  | .input d => d ∈ f.destinations x
  | .output q => q ∈ f.subscribers x

def Unused (f : NdsFactory) (n : String) : Prop := ∀ pv, ¬ f.RegisteredAs n pv

/-- The registry with one more PV. -/
def enter (f : NdsFactory) (v : Visit) : NdsFactory :=
  match v.pv with
  | .input p => { f with registeredInputPVs := f.registeredInputPVs.insert v.fullName p }
  | .output q => { f with registeredOutputPVs := f.registeredOutputPVs.insert v.fullName q }

variable {f : NdsFactory} {n : String} {pv : PVPointer} {v : Visit} {x : Nat}

theorem unused_iff :
    f.Unused n ↔ n ∉ f.registeredInputPVs ∧ n ∉ f.registeredOutputPVs := by
  rw [← AList.lookup_eq_none, ← AList.lookup_eq_none, Option.eq_none_iff_forall_ne_some,
    Option.eq_none_iff_forall_ne_some]
  constructor
  · exact fun h => ⟨fun p => h (.input p), fun q => h (.output q)⟩
  · rintro ⟨hi, ho⟩ (p | q)
    · exact hi p
    · exact ho q

theorem registeredAs_of_enter (h : (f.enter v).RegisteredAs n pv) :
    f.RegisteredAs n pv ∨ n = v.fullName ∧ pv = v.pv := by
  obtain ⟨i, m, p | q⟩ := v
  · cases pv with
    | input p' =>
      rcases History.lookup_of_insert h with ⟨hn, rfl⟩ | h
      · exact .inr ⟨hn, rfl⟩
      · exact .inl h
    | output q' => exact .inl h
  · cases pv with
    | input p' => exact .inl h
    | output q' =>
      rcases History.lookup_of_insert h with ⟨hn, rfl⟩ | h
      · exact .inr ⟨hn, rfl⟩
      · exact .inl h

theorem registeredAs_enter (h : f.RegisteredAs n pv) (hn : n ≠ v.fullName) :
    (f.enter v).RegisteredAs n pv := by
  obtain ⟨i, m, p | q⟩ := v
  · cases pv with
    | input p' => exact (AList.lookup_insert_ne hn).trans h
    | output q' => exact h
  · cases pv with
    | input p' => exact h
    | output q' => exact (AList.lookup_insert_ne hn).trans h

theorem leave_input {i : Nat} {m : String} {p : Nat} : f.leave ⟨i, m, .input p⟩ =
    { f with registeredInputPVs := f.registeredInputPVs.erase m }.scanInputs
      (·.stopReplicationTo p) := rfl

theorem leave_output {i : Nat} {m : String} {q : Nat} : f.leave ⟨i, m, .output q⟩ =
    { f with registeredOutputPVs := f.registeredOutputPVs.erase m }.scanInputs
      (·.unsubscribeReceiver q) := rfl

theorem registeredAs_of_leave (h : (f.leave v).RegisteredAs n pv) :
    f.RegisteredAs n pv ∧ ¬ (n = v.fullName ∧ pv = v.pv) := by
  obtain ⟨i, m, p | q⟩ := v
  · cases pv with
    | input p' =>
      have h : (f.registeredInputPVs.erase m).lookup n = some p' := by
        rwa [RegisteredAs, leave_input, scanInputs_registeredInputPVs] at h
      obtain ⟨hn, h⟩ := lookup_erase_eq_some.mp h
      exact ⟨h, fun hc => hn hc.1⟩
    | output q' =>
      rw [RegisteredAs, leave_input, scanInputs_registeredOutputPVs] at h
      exact ⟨h, fun hc => nomatch hc.2⟩
  · cases pv with
    | input p' =>
      rw [RegisteredAs, leave_output, scanInputs_registeredInputPVs] at h
      exact ⟨h, fun hc => nomatch hc.2⟩
    | output q' =>
      have h : (f.registeredOutputPVs.erase m).lookup n = some q' := by
        rwa [RegisteredAs, leave_output, scanInputs_registeredOutputPVs] at h
      obtain ⟨hn, h⟩ := lookup_erase_eq_some.mp h
      exact ⟨h, fun hc => hn hc.1⟩

theorem registeredAs_leave (h : f.RegisteredAs n pv) (hn : n ≠ v.fullName) :
    (f.leave v).RegisteredAs n pv := by
  obtain ⟨i, m, p | q⟩ := v
  · cases pv with
    | input p' =>
      rw [RegisteredAs, leave_input, scanInputs_registeredInputPVs]
      exact lookup_erase_eq_some.mpr ⟨hn, h⟩
    | output q' =>
      rw [RegisteredAs, leave_input, scanInputs_registeredOutputPVs]
      exact h
  · cases pv with
    | input p' =>
      rw [RegisteredAs, leave_output, scanInputs_registeredInputPVs]
      exact h
    | output q' =>
      rw [RegisteredAs, leave_output, scanInputs_registeredOutputPVs]
      exact lookup_erase_eq_some.mpr ⟨hn, h⟩

theorem linkedTo_of_leave (h : (f.leave v).LinkedTo x pv) :
    f.LinkedTo x pv ∧ ((f.leave v).Registered x → pv ≠ v.pv) := by
  have hreg : (f.leave v).Registered x → ∃ n, (f.leave v).RegisteredAs n (.input x) := id
  obtain ⟨i, m, p | q⟩ := v
  · simp only [RegisteredAs, leave_input, scanInputs_registeredInputPVs] at hreg
    cases pv with
    | input d =>
      obtain ⟨hold, hne⟩ := (History.scan_stopReplication p x).2 d h
      exact ⟨hold, fun hr hc => hne (hreg hr) (PVPointer.input.inj hc)⟩
    | output q =>
      refine ⟨?_, fun _ hc => nomatch hc⟩
      rw [LinkedTo, leave_input, (History.scan_stopReplication p x).1] at h
      exact h
  · simp only [RegisteredAs, leave_output, scanInputs_registeredInputPVs] at hreg
    cases pv with
    | input d =>
      refine ⟨?_, fun _ hc => nomatch hc⟩
      rw [LinkedTo, leave_output, (History.scan_unsubscribe q x).2] at h
      exact h
    | output q' =>
      obtain ⟨hold, hne⟩ := (History.scan_unsubscribe q x).1 q' h
      exact ⟨hold, fun hr hc => hne (hreg hr) (PVPointer.output.inj hc)⟩

/-! ## A whole tree -/

variable {vs : List Visit}

theorem registeredAs_of_enterAll (h : (vs.foldl enter f).RegisteredAs n pv) :
    f.RegisteredAs n pv ∨ ∃ v ∈ vs, n = v.fullName ∧ pv = v.pv := by
  induction vs generalizing f with
  | nil => exact .inl h
  | cons v vs ih =>
    rcases ih h with h | ⟨w, hw, h⟩
    · rcases registeredAs_of_enter h with h | h
      · exact .inl h
      · exact .inr ⟨v, by simp, h⟩
    · exact .inr ⟨w, List.mem_cons_of_mem _ hw, h⟩

theorem registeredAs_enterAll (h : f.RegisteredAs n pv) (hn : ∀ v ∈ vs, n ≠ v.fullName) :
    (vs.foldl enter f).RegisteredAs n pv := by
  induction vs generalizing f with
  | nil => exact h
  | cons v vs ih =>
    exact ih (registeredAs_enter h (hn v (by simp))) fun w hw => hn w (List.mem_cons_of_mem _ hw)

theorem registeredAs_of_leaveAll (h : (vs.foldl leave f).RegisteredAs n pv) :
    f.RegisteredAs n pv ∧ ∀ v ∈ vs, ¬ (n = v.fullName ∧ pv = v.pv) := by
  induction vs generalizing f with
  | nil => exact ⟨h, by simp⟩
  | cons v vs ih =>
    obtain ⟨h1, hvs⟩ := ih h
    obtain ⟨h1, hv⟩ := registeredAs_of_leave h1
    exact ⟨h1, List.forall_mem_cons.mpr ⟨hv, hvs⟩⟩

theorem registeredAs_leaveAll (h : f.RegisteredAs n pv) (hn : ∀ v ∈ vs, n ≠ v.fullName) :
    (vs.foldl leave f).RegisteredAs n pv := by
  induction vs generalizing f with
  | nil => exact h
  | cons v vs ih =>
    exact ih (registeredAs_leave h (hn v (by simp))) fun w hw => hn w (List.mem_cons_of_mem _ hw)

/-- An input PV that stays registered has been seen by every scan. -/
theorem linkedTo_of_leaveAll (h : (vs.foldl leave f).LinkedTo x pv) :
    f.LinkedTo x pv ∧ ((vs.foldl leave f).Registered x → ∀ v ∈ vs, pv ≠ v.pv) := by
  induction vs generalizing f with
  | nil => exact ⟨h, fun _ => by simp⟩
  | cons v vs ih =>
    obtain ⟨h1, hvs⟩ := ih h
    obtain ⟨h1, hv⟩ := linkedTo_of_leave h1
    refine ⟨h1, fun hr => List.forall_mem_cons.mpr ⟨hv ?_, hvs hr⟩⟩
    obtain ⟨n, hn⟩ := hr
    exact ⟨n, (@registeredAs_of_leaveAll (f.leave v) n (.input x) vs hn).1⟩

end NdsFactory

/-! ## What an initialization registers -/

namespace Element

mutual

/-- The PVs of a tree with their full names, in the order of the walk. -/
def declared (parents : List Link) : Element → List (String × PVPointer)
  | inputPV ptr name b t =>
    [(buildFullName ((inputPV ptr name (b.under parents) t).link :: parents), .input ptr)]
  | outputPV ptr name b t =>
    [(buildFullName ((outputPV ptr name (b.under parents) t).link :: parents), .output ptr)]
  | node name b t k children =>
    declaredAll ((node name (b.under parents) t k children).link :: parents) children
  | stateMachine b m children =>
    declaredAll ((stateMachine (b.under parents) m children).link :: parents) children

def declaredAll (parents : List Link) : List Element → List (String × PVPointer)
  | [] => []
  | c :: children => declared parents c ++ declaredAll parents children

end

end Element

def Visit.declared (v : Visit) : String × PVPointer := (v.fullName, v.pv)

/-- The world after these PVs and commands have been registered. -/
structure Registers (w w' : World) (visits : List Visit) (calls : List (String × Command)) :
    Prop where
  factory : w'.factory = visits.foldl .enter w.factory
  registeredPVs : w'.registeredPVs = w.registeredPVs ++ visits.map Visit.registered
  commands : w'.commands = w.commands ++ calls

theorem Registers.refl (w : World) : Registers w w [] [] :=
  ⟨rfl, (List.append_nil _).symm, (List.append_nil _).symm⟩

theorem Registers.trans {w1 w2 w3 : World} {vs vs' : List Visit}
    {calls calls' : List (String × Command)} (h : Registers w1 w2 vs calls)
    (h' : Registers w2 w3 vs' calls') : Registers w1 w3 (vs ++ vs') (calls ++ calls') where
  factory := by rw [h'.factory, h.factory, List.foldl_append]
  registeredPVs := by
    rw [h'.registeredPVs, h.registeredPVs, List.map_append, List.append_assoc]
  commands := by rw [h'.commands, h.commands, List.append_assoc]

theorem Registers.visit {w w' : World} {calls : List (String × Command)}
    (h : Registers w w' [] calls) (v : Visit) : Registers w { w' with
      registeredPVs := w'.registeredPVs ++ [v.registered]
      factory := w'.factory.enter v } [v] calls where
  factory := by rw [h.factory]; rfl
  registeredPVs := by
    rw [h.registeredPVs]
    simp
  commands := h.commands

theorem Init.call_eq_ok {answer : World → Option Exn} {effect : World → World} {w w' : World} :
    Init.call answer effect w = .ok () w' ↔ answer w = none ∧ w' = effect w := by
  rw [Init.call]
  cases answer w with
  | none => simp [eq_comm]
  | some e => simp

theorem Init.registry_ok {operation : NdsFactory → NdsFactory × Except Exn Unit} {w w' : World}
    (h : Init.registry operation w = .ok () w') :
    operation w.factory = (w'.factory, .ok ()) ∧ w' = { w with factory := w'.factory } := by
  rw [Init.registry] at h
  split at h
  · next f u hf =>
    cases h
    exact ⟨hf, rfl⟩
  · cases h

section

variable {cs : ControlSystem}

theorem registerCommands_registers {fullName : String} {commands : List Command} {w w' : World}
    (h : commands.forM (registerCommand cs fullName) w = .ok () w') :
    Registers w w' [] (commands.map (fullName, ·)) := by
  induction commands generalizing w with
  | nil =>
    obtain ⟨-, rfl⟩ := pure_eq_ok.mp h
    exact .refl w
  | cons c commands ih =>
    obtain ⟨_, w1, h1, h2⟩ := bind_eq_ok.mp h
    obtain ⟨-, rfl⟩ := Init.call_eq_ok.mp h1
    have hfirst : Registers w { w with commands := w.commands ++ [(fullName, c)] } []
        [(fullName, c)] := ⟨rfl, (List.append_nil _).symm, rfl⟩
    exact hfirst.trans (ih h2)

theorem baseInitialize_registers {path : List Link} {b b' : Base} {w w' : World}
    (h : baseInitialize cs path b w = .ok b' w') : Registers w w' [] b'.calls := by
  simp only [baseInitialize, bind_eq_ok, Init.lift_eq_ok, pure_eq_ok] at h
  obtain ⟨s, w1, ⟨-, rfl⟩, sPort, w2, ⟨-, rfl⟩, _, w3, hc, rfl, rfl⟩ := h
  exact registerCommands_registers hc

theorem pvInitialize_registers {path : List Link} {port : Option Nat} {pv : PVPointer}
    {b b' : Base} {w w' : World} (h : pvInitialize cs path port pv b w = .ok b' w') :
    ∃ i w1, port = some i ∧ Registers w w1 [] b'.calls ∧ b'.cachedFullName = buildFullName path ∧
      w' = { w1 with registeredPVs := w1.registeredPVs ++ [(i, pv)] } := by
  obtain ⟨b1, w1, hb, h⟩ := bind_eq_ok.mp h
  obtain ⟨s, sPort, -, -, hb1⟩ := baseInitialize_ok hb
  cases port with
  | none => cases h
  | some i =>
    obtain ⟨_, w2, hr, h⟩ := bind_eq_ok.mp h
    obtain ⟨rfl, rfl⟩ := pure_eq_ok.mp h
    obtain ⟨-, rfl⟩ := Init.call_eq_ok.mp hr
    exact ⟨i, w1, rfl, baseInitialize_registers hb, by rw [hb1], rfl⟩

theorem pvInitialize_enter {path : List Link} {port : Option Nat} {pv : PVPointer} {b b' : Base}
    {w w1 w' : World} (h : pvInitialize cs path port pv b w = .ok b' w1)
    (hw : w' = { w1 with factory := w'.factory })
    (hf : ∀ i, w'.factory = w1.factory.enter ⟨i, b'.cachedFullName, pv⟩) :
    ∃ i, port = some i ∧ Registers w w' [⟨i, b'.cachedFullName, pv⟩] b'.calls ∧
      b'.cachedFullName = buildFullName path ∧ b'.hasParent = b.hasParent := by
  obtain ⟨_, hb⟩ := pvInitialize_ok h
  obtain ⟨_, _, -, -, hb'⟩ := baseInitialize_ok hb
  obtain ⟨i, w2, rfl, hreg, hname, rfl⟩ := pvInitialize_registers h
  refine ⟨i, rfl, ?_, hname, by rw [hb']⟩
  rw [hw, hf i]
  exact hreg.visit ⟨i, b'.cachedFullName, pv⟩

theorem createInterface_registers {path : List Link} {k k' : NodeClass} {w w' : World}
    (h : createInterface cs path k w = .ok k' w') :
    Registers w w' [] [] ∧ k' ≠ .portImpl none := by
  unfold createInterface at h
  split at h
  · split at h
    · obtain ⟨rfl, rfl⟩ := EStateM.Result.ok.inj h
      exact ⟨⟨rfl, (List.append_nil _).symm, (List.append_nil _).symm⟩, by simp⟩
    · cases h
  · next hk =>
    obtain ⟨rfl, rfl⟩ := EStateM.Result.ok.inj h
    exact ⟨.refl w, hk⟩

theorem terminateRegistration_ok {k : NodeClass} {w w' : World}
    (h : terminateRegistration cs k w = .ok () w') : w' = w := by
  rcases k with _ | _ | i
  · exact (pure_eq_ok.mp h).2.symm
  · exact (pure_eq_ok.mp h).2.symm
  · have hcall : Init.call (cs.registrationTerminated · i) id w = .ok () w' := h
    exact (Init.call_eq_ok.mp hcall).2

theorem setParents_ok {children : List Element} {w w' : World}
    (h : children.forM (fun pChild => Init.lift (setParent pChild)) w = .ok () w') : w' = w := by
  induction children with
  | nil => exact (pure_eq_ok.mp h).2.symm
  | cons c children ih =>
    obtain ⟨_, w1, h1, h2⟩ := bind_eq_ok.mp h
    obtain ⟨-, rfl⟩ := Init.lift_eq_ok.mp h1
    exact ih h2

theorem pushState_ok {path : List Link} {port : Option Nat} {m : MachineState} {w w' : World}
    (h : pushState cs path port w = .ok m w') : w' = w := by
  obtain ⟨ts, w1, h1, h2⟩ := bind_eq_ok.mp h
  obtain ⟨-, rfl⟩ := Init.lift_eq_ok.mp h1
  cases port with
  | none => cases h2
  | some i =>
    obtain ⟨_, w2, h3, h4⟩ := bind_eq_ok.mp h2
    obtain ⟨-, rfl⟩ := Init.call_eq_ok.mp h3
    exact (pure_eq_ok.mp h4).2.symm

/-- What the walk makes of an element and of the world: the second walk will pass just what this
one has registered. -/
structure Walked (parents : List Link) (port : Option Nat) (e e' : Element) (w w' : World) :
    Prop where
  settled : e'.Settled port
  registers : Registers w w' (e'.visits port) e'.calls
  declared : (e'.visits port).map Visit.declared = e.declared parents
  hasParent : e'.base.hasParent = (e.base.under parents).hasParent

mutual

theorem initializeElement_walked {parents : List Link} {port : Option Nat} :
    (e : Element) → ∀ {e' w w'}, initializeElement cs parents port e w = .ok e' w' →
      Walked parents port e e' w w'
  | .inputPV ptr name b t, e', w, w', h => by
    simp only [initializeElement, bind_eq_ok, pure_eq_ok] at h
    obtain ⟨b1, w1, hb, _, w2, hr, rfl, rfl⟩ := h
    obtain ⟨hop, hw⟩ := Init.registry_ok hr
    obtain ⟨-, -, hf⟩ := NdsFactory.registerInputPV_ok hop
    obtain ⟨i, rfl, hreg, hname, hparent⟩ := pvInitialize_enter hb hw fun _ => hf
    exact ⟨.inputPV, hreg, by rw [Element.declared, ← hname]; rfl, hparent⟩
  | .outputPV ptr name b t, e', w, w', h => by
    simp only [initializeElement, bind_eq_ok, pure_eq_ok] at h
    obtain ⟨b1, w1, hb, _, w2, hr, rfl, rfl⟩ := h
    obtain ⟨hop, hw⟩ := Init.registry_ok hr
    obtain ⟨-, -, hf⟩ := NdsFactory.registerOutputPV_ok hop
    obtain ⟨i, rfl, hreg, hname, hparent⟩ := pvInitialize_enter hb hw fun _ => hf
    exact ⟨.outputPV, hreg, by rw [Element.declared, ← hname]; rfl, hparent⟩
  | .node name b t k children, e', w, w', h => by
    simp only [initializeElement, bind_eq_ok, pure_eq_ok] at h
    obtain ⟨k1, w1, hk, b1, w2, hb, _, w3, hp, children1, w4, hc, _, w5, ht, rfl, rfl⟩ := h
    obtain ⟨hreg, hk1⟩ := createInterface_registers hk
    obtain rfl := setParents_ok hp
    obtain rfl := terminateRegistration_ok ht
    obtain ⟨hset, hregs, hdecl⟩ := initializeChildren_walked children hc
    have hbase := baseInitialize_registers hb
    obtain ⟨_, _, -, -, hb1⟩ := baseInitialize_ok hb
    exact ⟨.node hk1 hset, (hreg.trans hbase).trans hregs, hdecl, by rw [hb1]; rfl⟩
  | .stateMachine b m children, e', w, w', h => by
    simp only [initializeElement, bind_eq_ok, pure_eq_ok] at h
    obtain ⟨b1, w2, hb, _, w3, hp, children1, w4, hc, m1, w5, hm, rfl, rfl⟩ := h
    obtain rfl := setParents_ok hp
    obtain rfl := pushState_ok hm
    obtain ⟨hset, hregs, hdecl⟩ := initializeChildren_walked children hc
    have hbase := baseInitialize_registers hb
    obtain ⟨_, _, -, -, hb1⟩ := baseInitialize_ok hb
    exact ⟨.stateMachine hset, hbase.trans hregs, hdecl, by rw [hb1]; rfl⟩

theorem initializeChildren_walked {parents : List Link} {port : Option Nat} :
    (children : List Element) → ∀ {children' w w'},
      initializeChildren cs parents port children w = .ok children' w' →
      (∀ c ∈ children', c.Settled port) ∧
      Registers w w' (visitsAll port children') (callsAll children') ∧
      (visitsAll port children').map Visit.declared = declaredAll parents children
  | [], children', w, w', h => by
    obtain ⟨rfl, rfl⟩ := pure_eq_ok.mp h
    exact ⟨fun c hc => (nomatch hc), .refl w, rfl⟩
  | c :: children, children', w, w', h => by
    simp only [initializeChildren, bind_eq_ok, pure_eq_ok] at h
    obtain ⟨c1, w1, hc, children1, w2, hcs, rfl, rfl⟩ := h
    have hfirst := initializeElement_walked c hc
    obtain ⟨hset, hregs, hdecl⟩ := initializeChildren_walked children hcs
    refine ⟨List.forall_mem_cons.mpr ⟨hfirst.settled, hset⟩, hfirst.registers.trans hregs, ?_⟩
    rw [visitsAll, List.map_append, hfirst.declared, hdecl, declaredAll]

end

end

/-! ## An initialization that nothing stands in the way of -/

/-- The tree as `addChild` has built it: no element has a parent yet. Every PV is below a port, and
with its PVs every state machine. -/
inductive Element.Uninitialized : Bool → Element → Prop where
  | inputPV {p n b t} (h : b.hasParent = false) : Uninitialized true (.inputPV p n b t)
  | outputPV {p n b t} (h : b.hasParent = false) : Uninitialized true (.outputPV p n b t)
  | node {below n b t k cs} (h : b.hasParent = false)
      (children : ∀ c ∈ cs, Uninitialized (below || k != .nodeImpl) c) :
      Uninitialized below (.node n b t k cs)
  | stateMachine {b m cs} (h : b.hasParent = false) (children : ∀ c ∈ cs, Uninitialized true c) :
      Uninitialized true (.stateMachine b m cs)

theorem Element.Uninitialized.hasParent {below : Bool} {e : Element} (h : e.Uninitialized below) :
    e.base.hasParent = false := by
  cases h <;> assumption

/-- The control system refuses nothing. -/
structure ControlSystem.Accepts (cs : ControlSystem) : Prop where
  sectionMissing : cs.sectionMissing = false
  getNewInterface : ∀ w fullName, cs.getNewInterface w fullName = none
  registerCommand : ∀ w fullName command, cs.registerCommand w fullName command = none
  registerPV : ∀ w pInterface pv, cs.registerPV w pInterface pv = none
  registrationTerminated : ∀ w pInterface, cs.registrationTerminated w pInterface = none
  getTimestamp : ∀ w path, ∃ timestamp, cs.getTimestamp w path = .ok timestamp
  push : ∀ w pInterface timestamp state, cs.push w pInterface timestamp state = none

section

variable {cs : ControlSystem}

theorem Init.call_returns {answer : World → Option Exn} {effect : World → World} {w : World}
    (h : answer w = none) : Init.call answer effect w = .ok () (effect w) :=
  Init.call_eq_ok.mpr ⟨h, rfl⟩

theorem buildFullExternalNameOf_returns {cs : Naming} (h : cs.sectionMissing = false) (b : Bool)
    (path : List Link) : ∃ s, buildFullExternalNameOf cs b path = .ok s := by
  obtain ⟨separator, name, rootName, hg⟩ := Naming.exists_gives h
  induction path with
  | nil => exact ⟨"", rfl⟩
  | cons e path ih =>
    cases path with
    | nil =>
      refine ⟨separator 0 ++ rootName e.externalName, ?_⟩
      rw [buildFullExternalNameOf, hg.getSeparator, hg.getRootNodeName]
      rfl
    | cons parent path =>
      obtain ⟨s, hs⟩ := ih
      obtain ⟨parentName, hp⟩ : ∃ parentName, (if (b && parent.isPort) = true then .ok ""
          else buildFullExternalNameOf cs b (parent :: path)) = Except.ok parentName := by
        split
        · exact ⟨"", rfl⟩
        · exact ⟨s, hs⟩
      rw [buildFullExternalNameOf, hg.buildName]
      simp only [bind, Except.bind, hp]
      split
      · exact ⟨_, rfl⟩
      · rw [hg.getSeparator]
        exact ⟨_, rfl⟩

theorem buildFullExternalNameFromPort_returns {cs : Naming} (h : cs.sectionMissing = false)
    (path : List Link) : ∃ s, buildFullExternalNameFromPort cs path = .ok s := by
  cases path with
  | nil => exact ⟨"", rfl⟩
  | cons e path =>
    rw [buildFullExternalNameFromPort]
    split
    · exact ⟨"", rfl⟩
    · exact buildFullExternalNameOf_returns h true _

theorem registerCommands_returns (ha : cs.Accepts) (fullName : String) (commands : List Command)
    (w : World) : ∃ w', commands.forM (registerCommand cs fullName) w = .ok () w' := by
  induction commands generalizing w with
  | nil => exact ⟨w, rfl⟩
  | cons c commands ih =>
    obtain ⟨w', hw⟩ := ih { w with commands := w.commands ++ [(fullName, c)] }
    exact ⟨w', (bind_of_ok (Init.call_returns (ha.registerCommand ..))).trans hw⟩

theorem baseInitialize_returns (ha : cs.Accepts) (path : List Link) (b : Base) (w : World) :
    ∃ b' w', baseInitialize cs path b w = .ok b' w' := by
  obtain ⟨s, hs⟩ := buildFullExternalNameOf_returns ha.sectionMissing false path
  obtain ⟨sPort, hsPort⟩ := buildFullExternalNameFromPort_returns ha.sectionMissing path
  obtain ⟨w', hw⟩ := registerCommands_returns ha (buildFullName path) b.commands w
  have hfull : buildFullExternalName cs.toNaming path = .ok s := hs
  simp only [baseInitialize, bind_eq_ok, Init.lift_eq_ok, pure_eq_ok]
  exact ⟨_, w', s, w, ⟨hfull, rfl⟩, sPort, w, ⟨hsPort, rfl⟩, (), w', hw, rfl, rfl⟩

theorem pvInitialize_returns (ha : cs.Accepts) (path : List Link) (i : Nat) (pv : PVPointer)
    (b : Base) (w : World) : ∃ b' w', pvInitialize cs path (some i) pv b w = .ok b' w' ∧
      w'.factory = w.factory ∧ b'.cachedFullName = buildFullName path := by
  obtain ⟨b', w1, hb⟩ := baseInitialize_returns ha path b w
  have hpv : pvInitialize cs path (some i) pv b w =
      .ok b' { w1 with registeredPVs := w1.registeredPVs ++ [(i, pv)] } :=
    (bind_of_ok hb).trans (bind_of_ok (Init.call_returns (ha.registerPV ..)))
  obtain ⟨_, w3, -, hreg, hname, hw⟩ := pvInitialize_registers hpv
  refine ⟨b', _, hpv, ?_, hname⟩
  rw [hw]
  exact hreg.factory

theorem registerInputPV_returns {f : NdsFactory} {n : String} (h : f.Unused n) (p : Nat) :
    ∃ f', f.registerInputPV (.ofPV n) p = (f', .ok ()) := by
  obtain ⟨hi, ho⟩ := NdsFactory.unused_iff.mp h
  exact ⟨_, (if_neg hi).trans (if_neg ho)⟩

theorem registerOutputPV_returns {f : NdsFactory} {n : String} (h : f.Unused n) (q : Nat) :
    ∃ f', f.registerOutputPV (.ofPV n) q = (f', .ok ()) := by
  obtain ⟨hi, ho⟩ := NdsFactory.unused_iff.mp h
  exact ⟨_, (if_neg ho).trans (if_neg hi)⟩

theorem Init.registry_returns {operation : NdsFactory → NdsFactory × Except Exn Unit} {w : World}
    (h : ∃ f, operation w.factory = (f, .ok ())) :
    ∃ w', Init.registry operation w = .ok () w' := by
  obtain ⟨f, hf⟩ := h
  exact ⟨{ w with factory := f }, by rw [Init.registry, hf]⟩

theorem createInterface_returns (ha : cs.Accepts) (path : List Link) (k : NodeClass) (w : World) :
    ∃ k' w', createInterface cs path k w = .ok k' w' := by
  unfold createInterface
  split
  · rw [ha.getNewInterface]
    exact ⟨_, _, rfl⟩
  · exact ⟨_, _, rfl⟩

theorem isSome_port {path : List Link} {k k' : NodeClass} {w w' : World} {port : Option Nat}
    (h : createInterface cs path k w = .ok k' w') {below : Bool} (hp : below = true → port.isSome)
    (hb : (below || k != .nodeImpl) = true) : (k'.port port).isSome := by
  obtain ⟨-, hk⟩ := createInterface_registers h
  rcases k' with _ | _ | i
  · rw [(createInterface_ok h).mp rfl] at hb
    exact hp (by simpa using hb)
  · exact absurd rfl hk
  · rfl

theorem setParents_returns {children : List Element}
    (h : ∀ c ∈ children, c.base.hasParent = false) (w : World) :
    children.forM (fun pChild => Init.lift (setParent pChild)) w = .ok () w := by
  induction children with
  | nil => rfl
  | cons c children ih =>
    have hc : Init.lift (setParent c) w = .ok () w :=
      Init.lift_eq_ok.mpr ⟨by rw [setParent, if_neg (by simp [h c])], rfl⟩
    exact (bind_of_ok hc).trans (ih fun c' hc' => h c' (List.mem_cons_of_mem _ hc'))

theorem terminateRegistration_returns (ha : cs.Accepts) (k : NodeClass) (w : World) :
    terminateRegistration cs k w = .ok () w := by
  rcases k with _ | _ | i
  · rfl
  · rfl
  · exact @Init.call_returns (cs.registrationTerminated · i) id w (ha.registrationTerminated ..)

theorem pushState_returns (ha : cs.Accepts) (path : List Link) (i : Nat) (w : World) :
    ∃ m, pushState cs path (some i) w = .ok m w := by
  obtain ⟨timestamp, hts⟩ := ha.getTimestamp w path
  refine ⟨⟨.off, timestamp, State.toInt_off_pos⟩, ?_⟩
  have hlift : Init.lift (cs.getTimestamp w path) w = .ok timestamp w :=
    Init.lift_eq_ok.mpr ⟨hts, rfl⟩
  exact (bind_of_ok hlift).trans (bind_of_ok (Init.call_returns (ha.push ..)))

theorem NdsFactory.Unused.enterAll {f : NdsFactory} {n : String} {vs : List Visit}
    (h : f.Unused n) (hn : n ∉ (vs.map Visit.declared).map Prod.fst) :
    (vs.foldl enter f).Unused n := by
  intro pv hpv
  rcases registeredAs_of_enterAll hpv with hpv | ⟨v, hv, rfl, -⟩
  · exact h pv hpv
  · exact hn (List.mem_map_of_mem (List.mem_map_of_mem hv))

mutual

/-- **The walk returns** when the control system refuses nothing and the names of the PVs are
distinct and unused. -/
theorem initializeElement_returns (ha : cs.Accepts) {parents : List Link} {port : Option Nat}
    {below : Bool} (hport : below = true → port.isSome) : (e : Element) → e.Uninitialized below →
      ((e.declared parents).map Prod.fst).Nodup → ∀ w : World,
      (∀ n ∈ (e.declared parents).map Prod.fst, w.factory.Unused n) →
      ∃ e' w', initializeElement cs parents port e w = .ok e' w'
  | .inputPV ptr name b t, h, _, w, hn => by
    cases h with | inputPV hb => ?_
    obtain ⟨i, rfl⟩ := Option.isSome_iff_exists.mp (hport rfl)
    obtain ⟨b1, w1, hpv, hf, hname⟩ := pvInitialize_returns ha
      ((Element.inputPV ptr name (b.under parents) t).link :: parents) i (.input ptr)
      (b.under parents) w
    obtain ⟨w2, hr⟩ := @Init.registry_returns (·.registerInputPV (.ofPV b1.cachedFullName) ptr) w1
      (registerInputPV_returns (by rw [hf, hname]; exact hn _ (.head _)) ptr)
    exact ⟨_, w2, (bind_of_ok hpv).trans (bind_of_ok hr)⟩
  | .outputPV ptr name b t, h, _, w, hn => by
    cases h with | outputPV hb => ?_
    obtain ⟨i, rfl⟩ := Option.isSome_iff_exists.mp (hport rfl)
    obtain ⟨b1, w1, hpv, hf, hname⟩ := pvInitialize_returns ha
      ((Element.outputPV ptr name (b.under parents) t).link :: parents) i (.output ptr)
      (b.under parents) w
    obtain ⟨w2, hr⟩ := @Init.registry_returns (·.registerOutputPV (.ofPV b1.cachedFullName) ptr) w1
      (registerOutputPV_returns (by rw [hf, hname]; exact hn _ (.head _)) ptr)
    exact ⟨_, w2, (bind_of_ok hpv).trans (bind_of_ok hr)⟩
  | .node name b t k children, h, hd, w, hn => by
    cases h with | node hb hcs => ?_
    let path := (Element.node name (b.under parents) t k children).link :: parents
    obtain ⟨k1, w1, hk⟩ := createInterface_returns ha path k w
    obtain ⟨b1, w2, hbase⟩ := baseInitialize_returns ha path (b.under parents) w1
    have hf : w2.factory = w.factory := (baseInitialize_registers hbase).factory.trans
      (createInterface_registers hk).1.factory
    obtain ⟨children1, w3, hc⟩ := initializeChildren_returns ha (isSome_port hk hport) children hcs
      hd w2 (by rw [hf]; exact hn)
    exact ⟨_, w3, (bind_of_ok hk).trans <| (bind_of_ok hbase).trans <|
      (bind_of_ok (setParents_returns (fun c hc => (hcs c hc).hasParent) w2)).trans <|
      (bind_of_ok hc).trans (bind_of_ok (terminateRegistration_returns ha k1 w3))⟩
  | .stateMachine b m children, h, hd, w, hn => by
    cases h with | stateMachine hb hcs => ?_
    obtain ⟨i, rfl⟩ := Option.isSome_iff_exists.mp (hport rfl)
    let path := (Element.stateMachine (b.under parents) m children).link :: parents
    obtain ⟨b1, w2, hbase⟩ := baseInitialize_returns ha path (b.under parents) w
    have hf : w2.factory = w.factory := (baseInitialize_registers hbase).factory
    obtain ⟨children1, w3, hc⟩ := initializeChildren_returns ha hport children hcs hd w2
      (by rw [hf]; exact hn)
    obtain ⟨m1, hm⟩ := pushState_returns ha path i w3
    exact ⟨_, w3, (bind_of_ok hbase).trans <|
      (bind_of_ok (setParents_returns (fun c hc => (hcs c hc).hasParent) w2)).trans <|
      (bind_of_ok hc).trans (bind_of_ok hm)⟩

theorem initializeChildren_returns (ha : cs.Accepts) {parents : List Link} {port : Option Nat}
    {below : Bool} (hport : below = true → port.isSome) : (children : List Element) →
      (∀ c ∈ children, c.Uninitialized below) →
      ((declaredAll parents children).map Prod.fst).Nodup → ∀ w : World,
      (∀ n ∈ (declaredAll parents children).map Prod.fst, w.factory.Unused n) →
      ∃ children' w', initializeChildren cs parents port children w = .ok children' w'
  | [], _, _, w, _ => ⟨[], w, rfl⟩
  | c :: children, h, hd, w, hn => by
    rw [declaredAll, List.map_append, List.nodup_append] at hd
    rw [declaredAll, List.map_append, List.forall_mem_append] at hn
    obtain ⟨hc, hcs⟩ := List.forall_mem_cons.mp h
    obtain ⟨c1, w1, hfirst⟩ := initializeElement_returns ha hport c hc hd.1 w hn.1
    have hwalk := initializeElement_walked c hfirst
    obtain ⟨children1, w2, hrest⟩ := initializeChildren_returns ha hport children hcs hd.2.1 w1 (by
      intro n hmem
      rw [hwalk.registers.factory]
      refine (hn.2 n hmem).enterAll ?_
      rw [hwalk.declared]
      exact fun hc => hd.2.2 n hc n hmem rfl)
    exact ⟨_, w2, (bind_of_ok hfirst).trans (bind_of_ok hrest)⟩

end

end

/-! ## There and back -/

/-- The operations that link and unlink PVs. -/
def Op.Links : Op → Prop
  | .registerInputPV _ | .registerOutputPV _ | .deregisterInputPV _ | .deregisterOutputPV _ => False
  | _ => True

/-- The registry after some operations, each of which may throw. -/
def NdsFactory.execAll (names : FullNames) (f : NdsFactory) (ops : List Op) : NdsFactory :=
  ops.foldl (fun f op => (f.exec names op).1) f

theorem NdsFactory.exec_links {names : FullNames} {f : NdsFactory} {op : Op} (h : op.Links) :
    (f.exec names op).1.registeredInputPVs = f.registeredInputPVs ∧
      (f.exec names op).1.registeredOutputPVs = f.registeredOutputPVs := by
  cases hx : f.exec names op with
  | mk f' r =>
    cases r with
    | error e =>
      rw [exec_error hx]
      exact ⟨rfl, rfl⟩
    | ok u =>
      have hsub : ∀ {src q}, f.subscribePV names src q = (f', .ok ()) →
          f'.registeredInputPVs = f.registeredInputPVs ∧
            f'.registeredOutputPVs = f.registeredOutputPVs := by
        intro src q h
        obtain ⟨-, p, -, rfl⟩ := subscribePV_ok h
        exact ⟨rfl, rfl⟩
      have hrep : ∀ {src d}, f.replicatePV names src d = (f', .ok ()) →
          f'.registeredInputPVs = f.registeredInputPVs ∧
            f'.registeredOutputPVs = f.registeredOutputPVs := by
        intro src d h
        obtain ⟨-, p, -, rfl⟩ := replicatePV_ok h
        exact ⟨rfl, rfl⟩
      have hscan : ∀ {g}, (f.scanInputs g, Except.ok ()) = (f', (.ok () : Except Exn Unit)) →
          f'.registeredInputPVs = f.registeredInputPVs ∧
            f'.registeredOutputPVs = f.registeredOutputPVs := by
        intro g h
        obtain ⟨rfl, -⟩ := Prod.mk.inj h
        exact ⟨scanInputs_registeredInputPVs, scanInputs_registeredOutputPVs⟩
      -- an operation by name comes down to its pointer form
      obtain ⟨op', hr, hx'⟩ := exec_resolve hx
      cases op with
      | registerInputPV | registerOutputPV | deregisterInputPV | deregisterOutputPV => cases h
      | subscribePV src q => exact hsub hx
      | replicatePV src d => exact hrep hx
      | unsubscribePV q => exact hscan hx
      | stopReplicationToPV d => exact hscan hx
      | subscribe src dst =>
        obtain ⟨q, -, rfl⟩ := Option.map_eq_some_iff.mp hr
        exact hsub hx'
      | replicate src dst =>
        obtain ⟨d, -, rfl⟩ := Option.map_eq_some_iff.mp hr
        exact hrep hx'
      | unsubscribe dst =>
        obtain ⟨q, -, rfl⟩ := Option.map_eq_some_iff.mp hr
        exact hscan hx'
      | stopReplicationTo dst =>
        obtain ⟨d, -, rfl⟩ := Option.map_eq_some_iff.mp hr
        exact hscan hx'

theorem NdsFactory.registeredAs_execAll {names : FullNames} {f : NdsFactory} {ops : List Op}
    (h : ∀ op ∈ ops, op.Links) {n : String} {pv : PVPointer} :
    (f.execAll names ops).RegisteredAs n pv ↔ f.RegisteredAs n pv := by
  induction ops generalizing f with
  | nil => rfl
  | cons op ops ih =>
    obtain ⟨hi, ho⟩ := @exec_links names f op (h op (by simp))
    refine (ih (f := (f.exec names op).1) fun op' h' => h op' (List.mem_cons_of_mem _ h')).trans ?_
    cases pv with
    | input p => rw [RegisteredAs, hi, RegisteredAs]
    | output q => rw [RegisteredAs, ho, RegisteredAs]

/-- Deinitialization has undone what initialization has made of the world `w`. -/
structure Undone (w w1 : World) (root : Element) (s : Undo) : Prop where
  /-- The registered PVs are those from before. -/
  registered : ∀ n pv, s.factory.RegisteredAs n pv ↔ w.factory.RegisteredAs n pv
  /-- None of them is linked to a PV of the tree. -/
  unlinked : ∀ x, s.factory.Registered x → ∀ pv ∈ (root.declared []).map Prod.snd,
    ¬ s.factory.LinkedTo x pv
  /-- The calls of `deregisterPV` are those of `registerPV` once more, one for each PV. -/
  deregisteredPVs : w1.registeredPVs = w.registeredPVs ++ s.deregisteredPVs
  pvs : s.deregisteredPVs.map Prod.snd = (root.declared []).map Prod.snd
  once : ((root.declared []).map Prod.snd).Nodup → s.deregisteredPVs.Nodup
  /-- `deregisterCommand` is called for the node of every command that was registered. -/
  deregisteredCommands : ∃ calls, w1.commands = w.commands ++ calls ∧
    s.deregisteredCommands = calls.map Prod.fst

variable {cs : ControlSystem}

theorem initializeRootNode_walked {pDeviceObject : Nat} {root root' : Element} {w w1 : World}
    (h : initializeRootNode cs pDeviceObject root w = .ok root' w1) :
    Registers w w1 (root'.visits none) root'.calls ∧ root'.Settled none ∧
      (root'.visits none).map Visit.declared = root.declared [] ∧
      root'.base.hasParent = false := by
  unfold initializeRootNode at h
  cases hp : root.base.hasParent with
  | true => rw [hp] at h; cases h
  | false =>
    rw [hp] at h
    obtain ⟨e, w2, he, h⟩ := bind_eq_ok.mp h
    obtain ⟨rfl, rfl⟩ := EStateM.Result.ok.inj h
    obtain ⟨hset, ⟨hf, hr, hc⟩, hd, hparent⟩ := initializeElement_walked root he
    exact ⟨⟨hf, hr, hc⟩, hset, hd, hparent.trans hp⟩

/-- What the second walk makes of the registry that the first one and the operations on the links
have left. -/
theorem undone_of_walked {root root' : Element} {w w1 : World} {names : FullNames} {ops : List Op}
    (hreg : Registers w w1 (root'.visits none) root'.calls)
    (hdecl : (root'.visits none).map Visit.declared = root.declared [])
    (hunused : ∀ n ∈ (root.declared []).map Prod.fst, w.factory.Unused n)
    (hops : ∀ op ∈ ops, Op.Links op) : Undone w w1 root
      ((⟨w1.factory.execAll names ops, [], []⟩ : Undo).pass (root'.visits none) root'.calls) := by
  have hnames : ∀ v ∈ root'.visits none, w.factory.Unused v.fullName := fun v hv =>
    hunused _ (hdecl ▸ List.mem_map_of_mem (List.mem_map_of_mem hv))
  have hpvs : ((root'.visits none).map Visit.registered).map Prod.snd =
      (root.declared []).map Prod.snd := by
    rw [← hdecl, List.map_map, List.map_map]
    rfl
  refine ⟨fun n pv => ⟨fun h => ?_, fun h => ?_⟩, fun x hx pv hpv hl => ?_, ?_, ?_, ?_, ?_⟩
  · -- whoever is still registered has not entered with the tree
    obtain ⟨h, hne⟩ := NdsFactory.registeredAs_of_leaveAll h
    rw [NdsFactory.registeredAs_execAll hops, hreg.factory] at h
    rcases NdsFactory.registeredAs_of_enterAll h with h | ⟨v, hv, hc⟩
    · exact h
    · exact absurd hc (hne v hv)
  · have hn : ∀ v ∈ root'.visits none, n ≠ v.fullName := by
      rintro v hv rfl
      exact hnames v hv pv h
    refine NdsFactory.registeredAs_leaveAll ?_ hn
    rw [NdsFactory.registeredAs_execAll hops, hreg.factory]
    exact NdsFactory.registeredAs_enterAll h hn
  · rw [← hpvs, List.map_map] at hpv
    obtain ⟨v, hv, rfl⟩ := List.mem_map.mp hpv
    exact (NdsFactory.linkedTo_of_leaveAll hl).2 hx v hv rfl
  · exact hreg.registeredPVs
  · exact hpvs
  · rw [← hpvs]
    exact List.Nodup.of_map _
  · exact ⟨root'.calls, hreg.commands, rfl⟩

/-- A control system that refuses nothing initializes a tree whose names are unused. -/
theorem initializeRootNode_returns (ha : cs.Accepts) {root : Element} {w : World}
    (hroot : root.Uninitialized false) (hnames : ((root.declared []).map Prod.fst).Nodup)
    (hunused : ∀ n ∈ (root.declared []).map Prod.fst, w.factory.Unused n) (pDeviceObject : Nat) :
    ∃ root' w1, initializeRootNode cs pDeviceObject root w = .ok root' w1 := by
  have hport : false = true → (none : Option Nat).isSome := fun h => nomatch h
  obtain ⟨root', w', h⟩ := initializeElement_returns ha hport root hroot hnames w hunused
  let held := Function.update w'.heldNodes pDeviceObject (w'.heldNodes pDeviceObject ++ [root'])
  refine ⟨root', { w' with heldNodes := held }, ?_⟩
  rw [initializeRootNode, if_neg (by simp [hroot.hasParent])]
  exact bind_of_ok h

/-- **Deinitialization undoes initialization.** With a control system that refuses nothing the
initialization returns. Whenever it returns, the deinitialization after any operations on the links
returns and has undone it, if the control system takes back what has been registered with it. -/
theorem deinitializeRootNode_undoes {root : Element} {w : World}
    (hroot : root.Uninitialized false) (hnames : ((root.declared []).map Prod.fst).Nodup)
    (hunused : ∀ n ∈ (root.declared []).map Prod.fst, w.factory.Unused n) (pDeviceObject : Nat) :
    (cs.Accepts → ∃ root' w1, initializeRootNode cs pDeviceObject root w = .ok root' w1) ∧
    ∀ root' w1, initializeRootNode cs pDeviceObject root w = .ok root' w1 →
      ∀ names ops, (∀ op ∈ ops, Op.Links op) → ∀ d : Deregistration,
        d.Accepts w1.commands w1.registeredPVs →
        ∃ s, deinitializeRootNode d root' ⟨w1.factory.execAll names ops, [], []⟩ = .ok () s ∧
          Undone w w1 root s := by
  constructor
  · exact fun ha => initializeRootNode_returns ha hroot hnames hunused pDeviceObject
  · intro root' w1 h names ops hops d hd
    obtain ⟨hreg, hset, hdecl, hparent⟩ := initializeRootNode_walked h
    have hd' : d.Accepts root'.calls ((root'.visits none).map Visit.registered) :=
      hd.mono (fun c hc => by rw [hreg.commands]; exact List.mem_append_right _ hc)
        fun v hv => by rw [hreg.registeredPVs]; exact List.mem_append_right _ hv
    have hrun := deinitializeElement_run root' hset hd' ⟨w1.factory.execAll names ops, [], []⟩
    refine ⟨_, by rw [deinitializeRootNode, if_neg (by simp [hparent])]; exact hrun, ?_⟩
    exact undone_of_walked hreg hdecl hunused hops

/-- A port with an input PV and an output PV. -/
def inputAndOutput : Element :=
  .node "root" (.construct "root" []) .generic (.portImpl none)
    [.inputPV 1 "in" (.construct "in" inputCommands) .generic,
      .outputPV 2 "out" (.construct "out" outputCommands) .generic]

/-- The functions of a control system that takes everything back. -/
def testDeregistration : Deregistration := ⟨fun _ _ => none, fun _ _ _ => none⟩

/-- The PVs are linked in between. -/
theorem deinitializeRootNode_undoes_linked : ∃ root' w1 s,
    initializeRootNode testControlSystem 0 inputAndOutput .empty = .ok root' w1 ∧
    (w1.factory.execAll (.ofPV "root-out") [.subscribe "root-in" "root-out"]).LinkedTo 1
      (.output 2) ∧
    deinitializeRootNode testDeregistration root'
      ⟨w1.factory.execAll (.ofPV "root-out") [.subscribe "root-in" "root-out"], [], []⟩ =
        .ok () s ∧
    Undone .empty w1 inputAndOutput s := by
  have hroot : inputAndOutput.Uninitialized false := by
    refine .node rfl fun c hc => ?_
    simp only [List.mem_cons, List.not_mem_nil, or_false] at hc
    rcases hc with rfl | rfl
    · exact .inputPV rfl
    · exact .outputPV rfl
  have hundoes := @deinitializeRootNode_undoes testControlSystem inputAndOutput .empty hroot
    (by decide) (fun n _ => NdsFactory.unused_iff.mpr ⟨by simp [World.empty, NdsFactory.empty],
      by simp [World.empty, NdsFactory.empty]⟩) 0
  obtain ⟨root', w1, h⟩ := hundoes.1
    ⟨rfl, fun _ _ => rfl, fun _ _ _ => rfl, fun _ _ _ => rfl, fun _ _ => rfl,
      fun _ _ => ⟨_, rfl⟩, fun _ _ _ _ => rfl⟩
  obtain ⟨s, hs, hundone⟩ := hundoes.2 root' w1 h (.ofPV "root-out")
    [.subscribe "root-in" "root-out"] (by simp [Op.Links]) testDeregistration
    ⟨fun _ _ _ => rfl, fun _ _ _ => rfl⟩
  refine ⟨root', w1, s, h, ?_, hs, hundone⟩
  cases h
  exact .head _

end Nds3
