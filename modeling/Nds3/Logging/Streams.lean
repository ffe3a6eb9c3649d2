import Mathlib.Data.List.Perm.Subperm
import Nds3.Definitions
import Nds3.Lib.Lts
import Nds3.Lib.ThreadSpecific

/-!
# Log streams

`LogStreamGetterImpl` gives every thread log streams of its own, one for each severity: it has a key
for each severity, and a thread's value for the key is its stream. A stream is deleted by the
destructor of the key when its thread ends, or by `~LogStreamGetterImpl`, which can only delete
those of the thread it is called in.

The keys are new ones: `pthread_key_create`, whose result the constructor does not look at, is taken
to succeed, as it does up to `PTHREAD_KEYS_MAX` keys. The function `createLogStream` of the user
allocates a new stream.

A run is a list of events. Each event has what came of it in it: the stream that was returned, or
the streams that were deleted.
-/

namespace Nds3

/-- An object of the class `LogStreamGetterImpl`, with `m_loggersKeys` while it is there. -/
inductive LogStreamGetter where
  | unconstructed
  | constructed (loggersKeys : List Nat)
  | destroyed
  deriving DecidableEq

namespace LogStreamGetter

def loggersKeys : LogStreamGetter → List Nat
  | constructed keys => keys
  | _ => []

/-- The thread takes its stream out of the key, to delete it. -/
def takeStream (t key : Nat) (tsd : ThreadSpecific Nat Nat Nat) :
    Option (List Nat × ThreadSpecific Nat Nat Nat) := do
  match ← tsd.getspecific t key with
  | some pStream => return ([pStream], ← tsd.setspecific t key none)
  | none => return ([], tsd)

/-- The loop of `~LogStreamGetterImpl`, called in the thread `t`, with the streams it deletes. -/
def destroy (t : Nat) : List Nat → ThreadSpecific Nat Nat Nat →
    Option (List Nat × ThreadSpecific Nat Nat Nat)
  | [], tsd => some ([], tsd)
  | key :: keys, tsd => do
    let (taken, tsd) ← takeStream t key tsd
    let tsd ← tsd.delete key
    let (deleted, tsd) ← destroy t keys tsd
    return (taken ++ deleted, tsd)

end LogStreamGetter

inductive LogEvent where
  /-- The constructor is given these keys by the calls of `pthread_key_create`. -/
  | construct (g : Nat) (keys : List Nat)
  /-- `getLogger` of an element that has the object as its `m_logStreamGetter`. -/
  | getLogger (t g : Nat) (logLevel : LogLevel) (result : Except Exn Nat)
  | destroy (t g : Nat) (deleted : List Nat)
  /-- The thread ends. -/
  | exit (t : Nat) (deleted : List Nat)
  deriving DecidableEq

namespace LogEvent

def deletes : LogEvent → List Nat
  | destroy _ _ deleted | exit _ deleted => deleted
  | _ => []

/-- The thread can get no stream from the object any more. -/
def ends (t g : Nat) : LogEvent → Bool
  | destroy _ g' _ => g' = g
  | exit t' _ => t' = t
  | _ => false

/-- It is the thread's own doing. -/
def own (t : Nat) : LogEvent → Bool
  | destroy t' _ _ | exit t' _ => t' = t
  | _ => false

end LogEvent

/-- The objects and the threads of a process. -/
structure LogStreams where
  tsd : ThreadSpecific Nat Nat Nat
  getters : Nat → LogStreamGetter
  ended : Nat → Bool
  /-- The stream that `createLogStream` allocates next. -/
  nextStream : Nat

namespace LogStreams

def empty : LogStreams := ⟨.empty, fun _ => .unconstructed, fun _ => false, 0⟩

def getLogStream (s : LogStreams) (t g : Nat) (logLevel : LogLevel) :
    Option (Nat × LogStreams) := do
  let key ← (s.getters g).loggersKeys[logLevel.toNat]?
  match ← s.tsd.getspecific t key with
  | some pStream => some (pStream, s)
  | none =>
    let tsd ← s.tsd.setspecific t key (some s.nextStream)
    some (s.nextStream, { s with tsd, nextStream := s.nextStream + 1 })

def getLogger (s : LogStreams) (t g : Nat) (logLevel : LogLevel) :
    Option (Except Exn Nat × LogStreams) :=
  if logLevel = .none then
    some (.error ⟨.logicError, "Should not ask for a log stream for severity \"none\""⟩, s)
  else (s.getLogStream t g logLevel).map fun (pStream, s) => (.ok pStream, s)

/-- The threads and the objects that take part are there. A constructor gets a new key for each
severity, and the order in which the destructors of the keys are called is not specified. -/
def step (s : LogStreams) : LogEvent → Option LogStreams
  | .construct g keys =>
    if s.getters g = .unconstructed ∧ keys.length = LogLevel.none.toNat then
      (keys.foldlM ThreadSpecific.create s.tsd).map fun tsd =>
        { s with tsd, getters := Function.update s.getters g (.constructed keys) }
    else none
  | .getLogger t g logLevel result =>
    if s.ended t then none
    else match s.getLogger t g logLevel with
      | some (r, s') => if result = r then some s' else none
      | none => none
  | .destroy t g deleted =>
    if s.ended t then none
    else match s.getters g with
      | .constructed keys =>
        match LogStreamGetter.destroy t keys s.tsd with
        | some (pStreams, tsd) =>
          if deleted = pStreams then
            some { s with tsd, getters := Function.update s.getters g .destroyed }
          else none
        | none => none
      | _ => none
  | .exit t deleted =>
    if s.ended t then none
    else if deleted.Perm (s.tsd.exit t).1 then
      some { s with tsd := (s.tsd.exit t).2, ended := Function.update s.ended t true }
    else none

/-- The key of the object for the severity. -/
def key (s : LogStreams) (g i : Nat) : Option Nat := (s.getters g).loggersKeys[i]?

/-- The stream that the thread has got from the object. -/
def stream (s : LogStreams) (t g i : Nat) : Option Nat := (s.key g i).bind (s.tsd.value t)

/-- Every key that is in use has one place in one object. -/
structure Consistent (s : LogStreams) : Prop where
  keys : ∀ k, k ∈ s.tsd.keys ↔ ∃ g i, s.key g i = some k
  injective : ∀ {g i g' i' k}, s.key g i = some k → s.key g' i' = some k → g = g' ∧ i = i'
  length : ∀ {g keys}, s.getters g = .constructed keys → keys.length = LogLevel.none.toNat

variable {s s' : LogStreams} {t g i k p : Nat} {keys : List Nat}

theorem consistent_empty : Consistent empty :=
  ⟨by simp [empty, ThreadSpecific.empty, key, LogStreamGetter.loggersKeys],
    (fun h => by cases h), (fun h => by cases h)⟩

/-! ## What the keys have to do with the streams -/

theorem key_constructed (h : s.getters g = .constructed keys) : s.key g i = keys[i]? := by
  rw [key, h, LogStreamGetter.loggersKeys]

theorem stream_of_key (h : s.key g i = some k) : s.stream t g i = s.tsd.value t k := by
  rw [stream, h, Option.bind_some]

theorem exists_key_of_stream (h : s.stream t g i = some p) :
    ∃ k, s.key g i = some k ∧ s.tsd.value t k = some p :=
  Option.bind_eq_some_iff.mp h

theorem Consistent.mem_keys (hc : Consistent s) (h : s.key g i = some k) : k ∈ s.tsd.keys :=
  (hc.keys k).mpr ⟨g, i, h⟩

theorem Consistent.nodup (hc : Consistent s) (h : s.getters g = .constructed keys) :
    keys.Nodup := by
  refine List.nodup_iff_getElem?_ne_getElem?.mpr fun i j hij hj heq => ?_
  rw [← key_constructed h, ← key_constructed h] at heq
  obtain ⟨k, hk⟩ : ∃ k, s.key g i = some k :=
    ⟨_, (key_constructed h).trans (List.getElem?_eq_getElem (by omega))⟩
  exact Nat.ne_of_lt hij (hc.injective hk (heq ▸ hk)).2

theorem Consistent.value_iff (hc : Consistent s) : (∃ k, s.tsd.value t k = some p) ↔
    ∃ g i, s.stream t g i = some p := by
  constructor
  · rintro ⟨k, hk⟩
    obtain ⟨g, i, hkey⟩ := (hc.keys k).mp (ThreadSpecific.mem_keys_of_value hk)
    exact ⟨g, i, (stream_of_key hkey).trans hk⟩
  · rintro ⟨g, i, h⟩
    obtain ⟨k, -, hk⟩ := exists_key_of_stream h
    exact ⟨k, hk⟩

theorem key_update (getter : LogStreamGetter) (g g' i : Nat) (tsd : ThreadSpecific Nat Nat Nat) :
    key { s with tsd, getters := Function.update s.getters g getter } g' i =
      if g' = g then getter.loggersKeys[i]? else s.key g' i := by
  by_cases hg : g' = g
  · subst hg
    simp [key]
  · simp [key, hg]

end LogStreams

namespace LogStreamGetter

theorem takeStream_mem {t key : Nat} {tsd : ThreadSpecific Nat Nat Nat} (h : key ∈ tsd.keys) :
    ∃ tsd', takeStream t key tsd = some ((tsd.value t key).toList, tsd') ∧ tsd'.keys = tsd.keys ∧
      ∀ t' k, k ≠ key → tsd'.value t' k = tsd.value t' k := by
  rw [takeStream, ThreadSpecific.getspecific_eq h]
  cases hv : tsd.value t key with
  | none => exact ⟨tsd, rfl, rfl, fun _ _ _ => rfl⟩
  | some pStream =>
    obtain ⟨tsd', h', hkeys, hvalue⟩ := ThreadSpecific.setspecific_mem h t none
    refine ⟨tsd', ?_, hkeys, fun t' k hk => ?_⟩
    · simp [h']
    · rw [hvalue, if_neg fun hc => hk hc.2]

theorem destroy_keys {t : Nat} {keys : List Nat} {tsd : ThreadSpecific Nat Nat Nat}
    (hnd : keys.Nodup) (hk : ∀ k ∈ keys, k ∈ tsd.keys) :
    ∃ tsd', destroy t keys tsd = some (keys.filterMap (tsd.value t), tsd') ∧
      (∀ k, k ∈ tsd'.keys ↔ k ∉ keys ∧ k ∈ tsd.keys) ∧
      ∀ t' k, tsd'.value t' k = if k ∈ keys then none else tsd.value t' k := by
  induction keys generalizing tsd with
  | nil => exact ⟨tsd, rfl, by simp, by simp⟩
  | cons key keys ih =>
    obtain ⟨hkey, hnd⟩ := List.nodup_cons.mp hnd
    have hrest : ∀ k ∈ keys, k ≠ key := fun k hk hc => hkey (hc ▸ hk)
    obtain ⟨tsd1, h1, hkeys1, hvalue1⟩ :=
      takeStream_mem (t := t) (hk key (List.mem_cons_self ..))
    obtain ⟨tsd2, h2, hkeys2, hvalue2⟩ :=
      ThreadSpecific.delete_mem (s := tsd1) (k := key) (hkeys1 ▸ hk key (List.mem_cons_self ..))
    obtain ⟨tsd', h', hkeys', hvalue'⟩ := @ih tsd2 hnd fun k hkk =>
      (hkeys2 k).mpr ⟨hrest k hkk, hkeys1 ▸ hk k (List.mem_cons_of_mem _ hkk)⟩
    have hvalue : ∀ t' k, tsd2.value t' k = if k = key then none else tsd.value t' k := by
      intro t' k
      rw [hvalue2]
      split
      · rfl
      · next hne => exact hvalue1 t' k hne
    refine ⟨tsd', ?_, fun k => ?_, fun t' k => ?_⟩
    · have hsame : keys.filterMap (tsd2.value t) = keys.filterMap (tsd.value t) :=
        List.filterMap_congr fun k hkk => by rw [hvalue, if_neg (hrest k hkk)]
      rw [destroy, h1]
      simp only [Option.bind_eq_bind, Option.bind_some, h2, h', hsame]
      cases hv : tsd.value t key <;> simp [hv]
    · rw [hkeys', hkeys2, hkeys1, List.mem_cons]
      tauto
    · rw [hvalue', hvalue]
      by_cases hkk : k = key <;> simp [hkk]

end LogStreamGetter

namespace LogStreams

variable {s s' : LogStreams} {t g i k p : Nat} {keys deleted : List Nat}

theorem Consistent.update (hc : Consistent s) {getter : LogStreamGetter}
    {tsd : ThreadSpecific Nat Nat Nat} (hnd : getter.loggersKeys.Nodup)
    (hlength : ∀ keys, getter = .constructed keys → keys.length = LogLevel.none.toNat)
    (hfresh : ∀ k ∈ getter.loggersKeys, ∀ g' i, g' ≠ g → s.key g' i ≠ some k)
    (hkeys : ∀ k, k ∈ tsd.keys ↔
      k ∈ getter.loggersKeys ∨ ∃ g' i, g' ≠ g ∧ s.key g' i = some k) :
    Consistent { s with tsd, getters := Function.update s.getters g getter } := by
  refine ⟨fun k => ?_, fun {g1 i1 g2 i2 k} h1 h2 => ?_, fun {g' keys} h => ?_⟩
  · simp only [hkeys, key_update, List.mem_iff_getElem?]
    constructor
    · rintro (⟨i, hi⟩ | ⟨g', i, hne, hi⟩)
      · exact ⟨g, i, (if_pos rfl).trans hi⟩
      · exact ⟨g', i, (if_neg hne).trans hi⟩
    · rintro ⟨g', i, hi⟩
      split at hi
      · exact .inl ⟨i, hi⟩
      · next hne => exact .inr ⟨g', i, hne, hi⟩
  · rw [key_update] at h1 h2
    split at h1
    · next hg1 =>
      split at h2
      · next hg2 =>
        refine ⟨hg1.trans hg2.symm, ?_⟩
        have hlt : i1 < getter.loggersKeys.length := (List.getElem?_eq_some_iff.mp h1).1
        exact (List.getElem?_inj hlt hnd).mp (h1.trans h2.symm)
      · next hg2 => exact absurd h2 (hfresh k (List.mem_of_getElem? h1) g2 i2 hg2)
    · next hg1 =>
      split at h2
      · exact absurd h1 (hfresh k (List.mem_of_getElem? h2) g1 i1 hg1)
      · exact hc.injective h1 h2
  · by_cases hg : g' = g
    · subst hg
      exact hlength keys (by simpa using h)
    · exact hc.length (g := g') (by simpa [hg] using h)

/-! ## What a step does to the streams -/

theorem step_construct (hc : Consistent s) (h : s.step (.construct g keys) = some s') :
    Consistent s' ∧ s.getters g = .unconstructed ∧ s'.stream = s.stream ∧ s'.ended = s.ended ∧
      s'.nextStream = s.nextStream ∧
      s'.getters = Function.update s.getters g (.constructed keys) := by
  simp only [step] at h
  split at h
  · next hg =>
    obtain ⟨hg, hlength⟩ := hg
    obtain ⟨tsd, hcreate, rfl⟩ := Option.map_eq_some_iff.mp h
    obtain ⟨hnd, hfresh, hkeys, hvalue⟩ := ThreadSpecific.createAll_some hcreate
    have hnone : ∀ i, s.key g i = none := fun i => by rw [key, hg]; rfl
    refine ⟨hc.update hnd (fun keys h => by cases h; exact hlength) ?_ fun k => ?_, hg, ?_, rfl,
      rfl, rfl⟩
    · exact fun k hk g' i _ hkey => hfresh k hk (hc.mem_keys hkey)
    · rw [hkeys, hc.keys]
      refine or_congr_right (exists_congr fun g' => exists_congr fun i => ?_)
      refine (and_iff_right_of_imp ?_).symm
      rintro hi rfl
      rw [hnone] at hi
      cases hi
    · funext t g' i
      rw [stream, stream, hvalue, key_update]
      split
      · next hg' =>
        rw [hg', hnone]
        refine Option.bind_eq_none_iff.mpr fun k hk => ?_
        exact if_neg (hfresh k (List.mem_of_getElem? hk))
      · rfl
  · cases h

theorem mem_filterMap_value (h : s.getters g = .constructed keys) :
    p ∈ keys.filterMap (s.tsd.value t) ↔ ∃ i, s.stream t g i = some p := by
  rw [List.mem_filterMap]
  constructor
  · rintro ⟨k, hk, hp⟩
    obtain ⟨i, hi⟩ := List.mem_iff_getElem?.mp hk
    exact ⟨i, (stream_of_key ((key_constructed h).trans hi)).trans hp⟩
  · rintro ⟨i, hi⟩
    obtain ⟨k, hk, hp⟩ := exists_key_of_stream hi
    exact ⟨k, List.mem_of_getElem? ((key_constructed h).symm.trans hk), hp⟩

/-- A thread has no stream for two keys. -/
def Distinct (s : LogStreams) (t : Nat) : Prop :=
  ∀ g i g' i' p, s.stream t g i = some p → s.stream t g' i' = some p → g = g' ∧ i = i'

theorem Distinct.key_eq (h : s.Distinct t) (hc : Consistent s) {k k' : Nat}
    (hk : s.tsd.value t k = some p) (hk' : s.tsd.value t k' = some p) : k = k' := by
  obtain ⟨g, i, hi⟩ := (hc.keys k).mp (ThreadSpecific.mem_keys_of_value hk)
  obtain ⟨g', i', hi'⟩ := (hc.keys k').mp (ThreadSpecific.mem_keys_of_value hk')
  obtain ⟨rfl, rfl⟩ :=
    h g i g' i' p ((stream_of_key hi).trans hk) ((stream_of_key hi').trans hk')
  exact Option.some.inj (hi.symm.trans hi')

theorem step_destroy (hc : Consistent s) (h : s.step (.destroy t g deleted) = some s') :
    Consistent s' ∧ s.ended t = false ∧ (∃ keys, s.getters g = .constructed keys) ∧
      s'.ended = s.ended ∧ s'.nextStream = s.nextStream ∧
      s'.getters = Function.update s.getters g .destroyed ∧
      (∀ t' g' i, s'.stream t' g' i = if g' = g then none else s.stream t' g' i) ∧
      (∀ p, p ∈ deleted ↔ ∃ i, s.stream t g i = some p) ∧ (s.Distinct t → deleted.Nodup) := by
  simp only [step] at h
  split at h
  · cases h
  next hended =>
  cases hg : s.getters g with
  | constructed keys =>
    have hkey : ∀ i, s.key g i = keys[i]? := fun i => key_constructed hg
    have hnd := hc.nodup hg
    obtain ⟨tsd, htsd, hkeys, hvalue⟩ := LogStreamGetter.destroy_keys (t := t) hnd
      fun k hk => by
        obtain ⟨i, hi⟩ := List.mem_iff_getElem?.mp hk
        exact hc.mem_keys ((hkey i).trans hi)
    -- the keys of the others are none of these
    have hother : ∀ g' i k, g' ≠ g → s.key g' i = some k → k ∉ keys := by
      intro g' i k hne hi hk
      obtain ⟨j, hj⟩ := List.mem_iff_getElem?.mp hk
      exact hne (hc.injective hi ((hkey j).trans hj)).1
    simp only [hg, htsd] at h
    split at h
    · next hdel =>
      cases h
      subst hdel
      refine ⟨hc.update List.nodup_nil (fun _ h => by cases h) (fun _ h => by cases h)
        fun k => ?_, by simpa using hended, ⟨keys, rfl⟩, rfl, rfl, rfl, fun t' g' i => ?_,
        fun p => mem_filterMap_value hg, fun hdist => ?_⟩
      · rw [hkeys, hc.keys]
        constructor
        · rintro ⟨hk, g', i, hi⟩
          refine .inr ⟨g', i, fun hg' => ?_, hi⟩
          subst hg'
          exact hk (List.mem_of_getElem? ((hkey i).symm.trans hi))
        · rintro (hk | ⟨g', i, hne, hi⟩)
          · cases hk
          · exact ⟨hother g' i k hne hi, g', i, hi⟩
      · rw [stream, key_update]
        split
        · rfl
        · next hne =>
          refine Option.bind_congr fun k hk => ?_
          rw [hvalue, if_neg (hother g' i k hne hk)]
      · exact hnd.filterMap fun k k' p hk hk' => hdist.key_eq hc hk hk'
    · cases h
  | unconstructed | destroyed =>
    simp only [hg] at h
    cases h

theorem step_exit (hc : Consistent s) (h : s.step (.exit t deleted) = some s') :
    Consistent s' ∧ s.ended t = false ∧ s'.ended = Function.update s.ended t true ∧
      s'.nextStream = s.nextStream ∧ s'.getters = s.getters ∧
      (∀ t' g i, s'.stream t' g i = if t' = t then none else s.stream t' g i) ∧
      (∀ p, p ∈ deleted ↔ ∃ g i, s.stream t g i = some p) ∧ (s.Distinct t → deleted.Nodup) := by
  simp only [step] at h
  split at h
  · cases h
  next hended =>
  split at h
  · next hperm =>
    cases h
    refine ⟨⟨hc.keys, hc.injective, hc.length⟩, by simpa using hended, rfl, rfl, rfl,
      fun t' g i => ?_, fun p => ?_, fun hdist => ?_⟩
    · show (s.key g i).bind ((s.tsd.exit t).2.value t') =
        if t' = t then none else (s.key g i).bind (s.tsd.value t')
      cases s.key g i with
      | none => exact (ite_self _).symm
      | some k => exact ThreadSpecific.value_exit s.tsd t t' k
    · rw [hperm.mem_iff, ThreadSpecific.mem_exit, hc.value_iff]
    · exact hperm.nodup_iff.mpr
        (ThreadSpecific.nodup_exit fun k k' p hk hk' => hdist.key_eq hc hk hk')
  · cases h

theorem getLogger_of_step {logLevel : LogLevel} {result : Except Exn Nat}
    (h : s.step (.getLogger t g logLevel result) = some s') :
    s.ended t = false ∧ s.getLogger t g logLevel = some (result, s') := by
  simp only [step] at h
  split at h
  · cases h
  next hended =>
  refine ⟨by simpa using hended, ?_⟩
  split at h
  · next r s1 hr =>
    split at h
    · next hres =>
      cases h
      rw [hr, hres]
    · cases h
  · cases h

theorem step_getLogger (hc : Consistent s) {logLevel : LogLevel}
    (h : s.step (.getLogger t g logLevel (.ok p)) = some s') :
    Consistent s' ∧ s.ended t = false ∧ (∃ keys, s.getters g = .constructed keys) ∧
      s'.ended = s.ended ∧ s'.getters = s.getters ∧
      ((s.stream t g logLevel.toNat = some p ∧ s' = s) ∨
        (s.stream t g logLevel.toNat = none ∧ p = s.nextStream ∧
          s'.nextStream = s.nextStream + 1 ∧
          ∀ t' g' i, s'.stream t' g' i =
            if t' = t ∧ g' = g ∧ i = logLevel.toNat then some p else s.stream t' g' i)) := by
  obtain ⟨hended, hr⟩ := getLogger_of_step h
  rw [getLogger] at hr
  split at hr
  · cases hr
  obtain ⟨⟨p, s1⟩, hget, heq⟩ := Option.map_eq_some_iff.mp hr
  cases heq
  simp only [getLogStream, Option.bind_eq_bind, Option.bind_eq_some_iff] at hget
  obtain ⟨k, hk, v, hv, hget⟩ := hget
  have hkey : s.key g logLevel.toNat = some k := hk
  have hmem := hc.mem_keys hkey
  have hg : ∃ keys, s.getters g = .constructed keys := by
    cases hg : s.getters g with
    | constructed keys => exact ⟨keys, rfl⟩
    | unconstructed | destroyed =>
      rw [hg] at hk
      cases hk
  rw [ThreadSpecific.getspecific_eq hmem, Option.some.injEq] at hv
  rw [stream_of_key hkey, hv]
  cases v with
  | some pStream =>
    cases hget
    exact ⟨hc, hended, hg, rfl, rfl, .inl ⟨rfl, rfl⟩⟩
  | none =>
    obtain ⟨tsd, htsd, hkeys, hvalue⟩ :=
      ThreadSpecific.setspecific_mem hmem t (some s.nextStream)
    simp only [htsd, Option.bind_some] at hget
    cases hget
    refine ⟨⟨fun k => hkeys ▸ hc.keys k, hc.injective, hc.length⟩, hended, hg, rfl, rfl,
      .inr ⟨rfl, rfl, rfl, fun t' g' i => ?_⟩⟩
    show (s.key g' i).bind (tsd.value t') = _
    cases hk' : s.key g' i with
    | none =>
      rw [if_neg]
      · rw [stream, hk', Option.bind_none, Option.bind_none]
      · rintro ⟨-, rfl, rfl⟩
        cases hk'.symm.trans hkey
    | some k' =>
      rw [Option.bind_some, hvalue, stream_of_key hk']
      refine if_congr ⟨?_, ?_⟩ rfl rfl
      · rintro ⟨rfl, rfl⟩
        exact ⟨rfl, hc.injective hk' hkey⟩
      · rintro ⟨rfl, rfl, rfl⟩
        exact ⟨rfl, Option.some.inj (hk'.symm.trans hkey)⟩

theorem step_getLogger_error {logLevel : LogLevel} {e : Exn}
    (h : s.step (.getLogger t g logLevel (.error e)) = some s') : s' = s := by
  obtain ⟨-, hr⟩ := getLogger_of_step h
  rw [getLogger] at hr
  split at hr
  · cases hr
    rfl
  · obtain ⟨⟨p, s1⟩, -, heq⟩ := Option.map_eq_some_iff.mp hr
    cases heq

end LogStreams

end Nds3
