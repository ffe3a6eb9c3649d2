import Mathlib.Data.List.AList
import Mathlib.Data.List.Sort
import Nds3.Definitions
import Nds3.Lib.Dag
import Nds3.Lib.Lts

/-!
# Log levels

Every element has a log level of its own, `warning` at first. `setLogLevel` of a node goes down to
its children, and so does the command of every element that sets it; an element that is added later
keeps the level that it has. So the level of an element is that of the last call that was made on an
element above it, as the tree was then (`logLevel_latest`).
-/

namespace Nds3

open Relation Dag

/-- The elements: `m_children` of those that are nodes, and `m_logLevel`. -/
structure LogLevels where
  children : Nat → AList fun _ : String => Nat
  logLevel : Nat → LogLevel

inductive LevelCall where
  | addChild (x y : Nat)
  /-- `setLogLevel`, or one of the commands `setLogLevelDebug` to `setLogLevelError`. -/
  | setLogLevel (x : Nat) (logLevel : LogLevel)

namespace LogLevels

/-- The elements as they are constructed. -/
def empty : LogLevels := ⟨fun _ => ∅, fun _ => .warning⟩

/-- The children of an element in the order of the map. -/
def scanChildren (children : Nat → AList fun _ : String => Nat) (x : Nat) : List Nat :=
  ((children x).entries.insertionSort fun a b => a.1 ≤ b.1).map (·.2)

/-- The children after a call of `addChild`, which throws if it finds the name. -/
def addChild (names : Nat → String) (children : Nat → AList fun _ : String => Nat) (x y : Nat) :
    Nat → AList fun _ : String => Nat :=
  if names y ∈ children x then children
  else Function.update children x ((children x).insert (names y) y)

def setLogLevel (children : Nat → AList fun _ : String => Nat) (logLevel : LogLevel) :
    Nat → Nat → (Nat → LogLevel) → Option (Nat → LogLevel)
  | 0, _, _ => none
  | fuel + 1, x, levels =>
    (scanChildren children x).foldlM (fun levels y => setLogLevel children logLevel fuel y levels)
      (Function.update levels x logLevel)

def isLogLevelEnabled (s : LogLevels) (x : Nat) (logLevel : LogLevel) : Bool :=
  (s.logLevel x).toNat ≤ logLevel.toNat

/-- An `addChild` that throws changes nothing. -/
def step (names : Nat → String) (fuel : Nat) (s : LogLevels) : LevelCall → Option LogLevels
  | .addChild x y => some { s with children := addChild names s.children x y }
  | .setLogLevel x logLevel =>
    (setLogLevel s.children logLevel fuel x s.logLevel).map fun levels =>
      { s with logLevel := levels }

variable {names : Nat → String} {children : Nat → AList fun _ : String => Nat} {fuel x y z : Nat}
  {logLevel : LogLevel} {levels : Nat → LogLevel} {s s' : LogLevels}

theorem mem_scanChildren :
    y ∈ scanChildren children x ↔
      ∃ name, (⟨name, y⟩ : Sigma fun _ => Nat) ∈ (children x).entries := by
  simp only [scanChildren, List.mem_map, List.mem_insertionSort]
  constructor
  · rintro ⟨⟨name, y⟩, h, rfl⟩
    exact ⟨name, h⟩
  · rintro ⟨name, h⟩
    exact ⟨⟨name, y⟩, h, rfl⟩

/-- The elements that an element stands above, itself included. -/
abbrev Above (children : Nat → AList fun _ : String => Nat) : Nat → Nat → Prop :=
  ReflTransGen (Edge (scanChildren children))

open Classical in
/-- A call reaches the elements that are below, once or more often. -/
theorem setLogLevel_eq (h : Depth (scanChildren children) fuel x) (logLevel : LogLevel)
    (levels : Nat → LogLevel) : setLogLevel children logLevel fuel x levels =
      some fun y => if Above children x y then logLevel else levels y := by
  induction fuel generalizing x levels with
  | zero => cases h
  | succ n ih =>
    have hlist : ∀ (l : List Nat) (levels : Nat → LogLevel),
        (∀ y ∈ l, Depth (scanChildren children) n y) →
        l.foldlM (fun levels y => setLogLevel children logLevel n y levels) levels =
          some fun z => if ∃ y ∈ l, Above children y z then logLevel else levels z := by
      intro l
      induction l with
      | nil => simp
      | cons y l ihl =>
        intro levels hl
        rw [List.foldlM_cons, ih (hl y (List.mem_cons_self ..))]
        refine (ihl _ fun z hz => hl z (List.mem_cons_of_mem _ hz)).trans ?_
        refine congrArg some (funext fun z => ?_)
        by_cases h1 : Above children y z <;> by_cases h2 : ∃ w ∈ l, Above children w z <;>
          simp [h1, h2]
    rw [setLogLevel, hlist _ _ h]
    refine congrArg some (funext fun z => ?_)
    have hiff : Above children x z ↔ x = z ∨ ∃ y ∈ scanChildren children x, Above children y z :=
      ReflTransGen.cases_head_iff
    by_cases h1 : ∃ y ∈ scanChildren children x, Above children y z
    · rw [if_pos h1, if_pos (hiff.mpr (.inr h1))]
    · by_cases h2 : x = z
      · subst h2
        rw [if_neg h1, if_pos .refl, Function.update_self]
      · rw [if_neg h1, if_neg fun h => (hiff.mp h).elim h2 h1, Function.update_of_ne (Ne.symm h2)]

theorem scanChildren_addChild (names : Nat → String) (children : Nat → AList fun _ : String => Nat)
    (a b x : Nat) : scanChildren children x ⊆ scanChildren (addChild names children a b) x := by
  intro y hy
  obtain ⟨name, hmem⟩ := mem_scanChildren.mp hy
  refine mem_scanChildren.mpr ⟨name, ?_⟩
  rw [addChild]
  split
  · exact hmem
  · next hname =>
    by_cases hx : x = a
    · subst hx
      rw [Function.update_self, AList.entries_insert_of_notMem hname]
      exact List.mem_cons_of_mem _ hmem
    · rwa [Function.update_of_ne hx]

/-- The children after some calls. -/
def childrenAfter (names : Nat → String) (calls : List LevelCall)
    (children : Nat → AList fun _ : String => Nat) : Nat → AList fun _ : String => Nat :=
  calls.foldl (fun children => fun
    | .addChild x y => addChild names children x y
    | .setLogLevel _ _ => children) children

theorem scanChildren_childrenAfter (names : Nat → String) (calls : List LevelCall)
    (children : Nat → AList fun _ : String => Nat) (x : Nat) :
    scanChildren children x ⊆ scanChildren (childrenAfter names calls children) x := by
  induction calls generalizing children with
  | nil => exact List.Subset.refl _
  | cons call calls ih =>
    cases call with
    | addChild a b => exact List.Subset.trans (scanChildren_addChild names children a b x) (ih _)
    | setLogLevel a l => exact ih children

theorem finite_childrenAfter (names : Nat → String) (calls : List LevelCall)
    (h : {x | scanChildren children x ≠ []}.Finite) :
    {x | scanChildren (childrenAfter names calls children) x ≠ []}.Finite := by
  induction calls generalizing children with
  | nil => exact h
  | cons call calls ih =>
    cases call with
    | addChild a b =>
      refine ih ((h.insert a).subset fun x hx => ?_)
      by_cases hxa : x = a
      · exact .inl hxa
      · refine .inr fun hc => hx ?_
        show scanChildren (addChild names children a b) x = []
        rw [addChild]
        split
        · exact hc
        · rwa [scanChildren, Function.update_of_ne hxa]
    | setLogLevel a l => exact ih h

open Classical in
theorem exists_exec {calls : List LevelCall}
    (hd : ∀ x, Depth (scanChildren (childrenAfter names calls s.children)) fuel x) :
    ∃ s', Lts.exec (step names fuel) s calls = some s' ∧
      s'.children = childrenAfter names calls s.children := by
  induction calls generalizing s with
  | nil => exact ⟨s, rfl, rfl⟩
  | cons call calls ih =>
    cases call with
    | addChild a b => exact ih (s := { s with children := addChild names s.children a b }) hd
    | setLogLevel a l =>
      have hdepth : Depth (scanChildren s.children) fuel a :=
        (hd a).anti (scanChildren_childrenAfter names calls s.children)
      obtain ⟨s', hs', hchildren⟩ :=
        ih (s := ⟨s.children, fun y => if Above s.children a y then l else s.logLevel y⟩) hd
      refine ⟨s', ?_, hchildren⟩
      rw [Lts.exec, step, setLogLevel_eq hdepth, Option.map_some, Option.bind_some]
      exact hs'

open Classical in
/-- What a call sets the element to, in the tree as it is. -/
noncomputable def sets (x : Nat) (s : LogLevels) : LevelCall → Option LogLevel
  | .setLogLevel y logLevel => if Above s.children y x then some logLevel else none
  | .addChild _ _ => none

theorem depth_of_step {call : LevelCall} (h : step names fuel s call = some s')
    (hd : ∀ x, Depth (scanChildren s'.children) fuel x) (x : Nat) :
    Depth (scanChildren s.children) fuel x := by
  cases call with
  | addChild a b =>
    cases h
    exact (hd x).anti (scanChildren_addChild names s.children a b)
  | setLogLevel a l =>
    obtain ⟨levels, -, rfl⟩ := Option.map_eq_some_iff.mp h
    exact hd x

/-- **Step lemma.** -/
theorem step_logLevel {call : LevelCall} (h : step names fuel s call = some s')
    (hd : ∀ x, Depth (scanChildren s.children) fuel x) (x : Nat) :
    s'.logLevel x = (sets x s call).getD (s.logLevel x) := by
  cases call with
  | addChild a b =>
    cases h
    rfl
  | setLogLevel a l =>
    rw [step, setLogLevel_eq (hd a), Option.map_some] at h
    cases h
    by_cases hx : Above s.children a x
    · simp [sets, hx]
    · simp [sets, hx]

/-- **Whose level an element has.** If the children that are added close no cycle, every call of
`setLogLevel` comes to its end, and afterwards each element has the level of the last call on an
element that stood above it at the time of the call, or `warning` if there was none: exactly the
severities from that level on are enabled. -/
theorem logLevel_latest (names : Nat → String) (calls : List LevelCall)
    (hac : Acyclic (Edge (scanChildren (childrenAfter names calls empty.children)))) :
    ∃ n, ∀ fuel ≥ n, ∃ s, Lts.exec (step names fuel) empty calls = some s ∧
      ∀ x, s.logLevel x =
          (Lts.latestAt (step names fuel) (sets x) empty calls).getD .warning ∧
        ∀ logLevel, s.isLogLevelEnabled x logLevel = true ↔
          ((Lts.latestAt (step names fuel) (sets x) empty calls).getD .warning).toNat ≤
            logLevel.toNat := by
  have hfin : {x | scanChildren (childrenAfter names calls empty.children) x ≠ []}.Finite := by
    refine finite_childrenAfter names calls (Set.finite_empty.subset fun x hx => ?_)
    exact absurd rfl hx
  obtain ⟨n, hn⟩ := exists_depth_all hfin hac
  refine ⟨n, fun fuel hfuel => ?_⟩
  obtain ⟨s, hs, hchildren⟩ := exists_exec (s := empty) fun x => (hn x).mono hfuel
  refine ⟨s, hs, fun x => ?_⟩
  have hlevel : s.logLevel x =
      (Lts.latestAt (step names fuel) (sets x) empty calls).getD .warning :=
    Lts.exec_latestAt (fun s => s.logLevel x)
      (fun s => ∀ x, Depth (scanChildren s.children) fuel x) depth_of_step
      (fun h hd => step_logLevel h (depth_of_step h hd) x) hs
      fun x => hchildren ▸ (hn x).mono hfuel
  refine ⟨hlevel, fun logLevel => ?_⟩
  rw [isLogLevelEnabled, hlevel, decide_eq_true_iff]

/-- A child that is added after the call keeps its level. -/
theorem logLevel_latest_added :
    let names : Nat → String := fun x => if x = 1 then "a" else "b"
    ∃ n, ∀ fuel ≥ n, ∃ s, Lts.exec (step names fuel) empty
        [.addChild 0 1, .setLogLevel 0 .debug, .addChild 1 2] = some s ∧
      s.logLevel 1 = .debug ∧ s.isLogLevelEnabled 2 .info = false := by
  intro names
  have hedge : ∀ x y, Edge (scanChildren (childrenAfter names
      [.addChild 0 1, .setLogLevel 0 .debug, .addChild 1 2] empty.children)) x y → x < y := by
    intro x y h
    obtain ⟨name, hmem⟩ := mem_scanChildren.mp h
    by_cases h0 : x = 0
    · subst h0
      obtain ⟨-, rfl⟩ : name = "a" ∧ y = 1 := by
        simpa [childrenAfter, addChild, empty, names] using hmem
      exact Nat.zero_lt_one
    by_cases h1 : x = 1
    · subst h1
      obtain ⟨-, rfl⟩ : name = "b" ∧ y = 2 := by
        simpa [childrenAfter, addChild, empty, names] using hmem
      exact Nat.one_lt_two
    · simp [childrenAfter, addChild, empty, h0, h1] at hmem
  have hlt : ∀ x y, TransGen (Edge (scanChildren (childrenAfter names
      [.addChild 0 1, .setLogLevel 0 .debug, .addChild 1 2] empty.children))) x y → x < y := by
    intro x y h
    induction h with
    | single h => exact hedge _ _ h
    | tail _ h ih => exact Nat.lt_trans ih (hedge _ _ h)
  obtain ⟨n, hn⟩ := logLevel_latest names
    [.addChild 0 1, .setLogLevel 0 .debug, .addChild 1 2] fun x hx => Nat.lt_irrefl x (hlt x x hx)
  refine ⟨n, fun fuel hfuel => ?_⟩
  obtain ⟨s, hs, hlevel⟩ := hn fuel hfuel
  refine ⟨s, hs, (hlevel 1).1.trans ?_, Bool.eq_false_iff.mpr fun hc => ?_⟩
  · have h01 : Above (addChild names empty.children 0 1) 0 1 :=
      .single (mem_scanChildren.mpr ⟨"a", by simp [addChild, empty, names]⟩)
    simp [Lts.latestAt, step, sets, h01]
  · have h02 : ¬ Above (addChild names empty.children 0 1) 0 2 := by
      intro h
      obtain ⟨y, -, hy⟩ := (ReflTransGen.cases_tail h).resolve_left (by decide)
      obtain ⟨name, hmem⟩ := mem_scanChildren.mp hy
      by_cases h0 : y = 0
      · subst h0
        simp [addChild, empty] at hmem
      · simp [addChild, empty, h0] at hmem
    have hwarning := ((hlevel 2).2 .info).mp hc
    simp [Lts.latestAt, step, sets, h02, LogLevel.toNat] at hwarning

end LogLevels

end Nds3
