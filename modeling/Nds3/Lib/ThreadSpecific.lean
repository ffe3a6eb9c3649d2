import Mathlib.Data.List.Nodup

/-!
# Thread specific data

Keys are created and deleted while threads run. Each thread has a value of its own for every key
that is in use, and none at first. A thread that ends gives up its values, one by one; a key that is
deleted gives up none, and the same key may be created again later.
-/

/-- The keys that are in use, and the value of each thread for each key. -/
structure ThreadSpecific (Thread Key Value : Type*) where
  keys : List Key
  values : Thread → Key → Option Value
  nodup : keys.Nodup

namespace ThreadSpecific

variable {Thread Key Value : Type*} [DecidableEq Key]

def empty : ThreadSpecific Thread Key Value := ⟨[], fun _ _ => none, List.nodup_nil⟩

/-- A key that is not in use yet; no thread has a value for it. -/
def create (s : ThreadSpecific Thread Key Value) (k : Key) :
    Option (ThreadSpecific Thread Key Value) :=
  if h : k ∈ s.keys then none
  else some ⟨k :: s.keys, fun t => Function.update (s.values t) k none,
    List.nodup_cons.mpr ⟨h, s.nodup⟩⟩

/-- The values for the key stay where they are. -/
def delete (s : ThreadSpecific Thread Key Value) (k : Key) :
    Option (ThreadSpecific Thread Key Value) :=
  if k ∈ s.keys then some ⟨s.keys.erase k, s.values, s.nodup.erase k⟩ else none

/-- The value of the calling thread. -/
def getspecific (s : ThreadSpecific Thread Key Value) (t : Thread) (k : Key) :
    Option (Option Value) :=
  if k ∈ s.keys then some (s.values t k) else none

def setspecific [DecidableEq Thread] (s : ThreadSpecific Thread Key Value) (t : Thread) (k : Key)
    (v : Option Value) : Option (ThreadSpecific Thread Key Value) :=
  if k ∈ s.keys then
    some { s with values := Function.update s.values t (Function.update (s.values t) k v) }
  else none

/-- The end of a thread: the values that the destructors are called with. -/
def exit [DecidableEq Thread] (s : ThreadSpecific Thread Key Value) (t : Thread) :
    List Value × ThreadSpecific Thread Key Value :=
  (s.keys.filterMap (s.values t), { s with values := Function.update s.values t fun _ => none })

/-- The value of a thread for a key, if the key is in use and has one. -/
def value (s : ThreadSpecific Thread Key Value) (t : Thread) (k : Key) : Option Value :=
  if k ∈ s.keys then s.values t k else none

variable {s s' : ThreadSpecific Thread Key Value} {t : Thread} {k : Key} {v : Value}

theorem mem_keys_of_value (h : s.value t k = some v) : k ∈ s.keys := by
  by_contra hk
  rw [value, if_neg hk] at h
  cases h

theorem getspecific_eq (h : k ∈ s.keys) : s.getspecific t k = some (s.value t k) := by
  rw [getspecific, value, if_pos h, if_pos h]

theorem create_some (h : s.create k = some s') :
    k ∉ s.keys ∧ (∀ k', k' ∈ s'.keys ↔ k' = k ∨ k' ∈ s.keys) ∧ s'.value = s.value := by
  rw [create] at h
  split at h
  · cases h
  · next hk =>
    cases h
    refine ⟨hk, fun _ => List.mem_cons, funext fun t => funext fun k' => ?_⟩
    by_cases hc : k' = k
    · subst hc
      simp [value, hk]
    · simp [value, hc]

theorem delete_mem (h : k ∈ s.keys) :
    ∃ s', s.delete k = some s' ∧ (∀ k', k' ∈ s'.keys ↔ k' ≠ k ∧ k' ∈ s.keys) ∧
      ∀ t k', s'.value t k' = if k' = k then none else s.value t k' := by
  refine ⟨_, if_pos h, fun k' => s.nodup.mem_erase_iff, fun t k' => ?_⟩
  by_cases hc : k' = k
  · simp [value, hc, s.nodup.mem_erase_iff]
  · simp [value, hc, s.nodup.mem_erase_iff]

theorem setspecific_mem [DecidableEq Thread] (h : k ∈ s.keys) (t : Thread) (v : Option Value) :
    ∃ s', s.setspecific t k v = some s' ∧ s'.keys = s.keys ∧
      ∀ t' k', s'.value t' k' = if t' = t ∧ k' = k then v else s.value t' k' := by
  refine ⟨_, if_pos h, rfl, fun t' k' => ?_⟩
  by_cases ht : t' = t
  · subst ht
    by_cases hk : k' = k
    · subst hk
      simp [value, h]
    · simp [value, hk]
  · simp [value, ht]

theorem value_exit [DecidableEq Thread] (s : ThreadSpecific Thread Key Value) (t t' : Thread)
    (k : Key) : (s.exit t).2.value t' k = if t' = t then none else s.value t' k := by
  by_cases ht : t' = t
  · subst ht
    simp [value, exit]
  · simp [value, exit, ht]

theorem mem_exit [DecidableEq Thread] : v ∈ (s.exit t).1 ↔ ∃ k, s.value t k = some v := by
  simp only [exit, List.mem_filterMap]
  refine exists_congr fun k => ?_
  by_cases hk : k ∈ s.keys
  · simp [value, hk]
  · simp [value, hk]

theorem nodup_exit [DecidableEq Thread]
    (h : ∀ k k' v, s.value t k = some v → s.value t k' = some v → k = k') :
    (s.exit t).1.Nodup := by
  have hvalue : (s.exit t).1 = s.keys.filterMap (s.value t) :=
    List.filterMap_congr fun k hk => (if_pos hk).symm
  rw [hvalue]
  exact s.nodup.filterMap fun k k' v hv hv' => h k k' v hv hv'

/-! ## Several keys -/

variable {ks : List Key}

theorem createAll_some (h : ks.foldlM create s = some s') :
    ks.Nodup ∧ (∀ k ∈ ks, k ∉ s.keys) ∧ (∀ k, k ∈ s'.keys ↔ k ∈ ks ∨ k ∈ s.keys) ∧
      s'.value = s.value := by
  induction ks generalizing s with
  | nil =>
    cases h
    simp
  | cons k ks ih =>
    obtain ⟨s1, h1, h2⟩ := Option.bind_eq_some_iff.mp ((List.foldlM_cons ..).symm.trans h)
    obtain ⟨hk, hkeys1, hvalue1⟩ := create_some h1
    obtain ⟨hnd, hfresh, hkeys, hvalue⟩ := ih h2
    refine ⟨List.nodup_cons.mpr ⟨fun hmem => ?_, hnd⟩, fun k' hk' => ?_, fun k' => ?_,
      hvalue.trans hvalue1⟩
    · exact hfresh k hmem ((hkeys1 k).mpr (.inl rfl))
    · rcases List.mem_cons.mp hk' with rfl | hk'
      · exact hk
      · exact fun hc => hfresh k' hk' ((hkeys1 k').mpr (.inr hc))
    · rw [hkeys, hkeys1, List.mem_cons]
      tauto

end ThreadSpecific
