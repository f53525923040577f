/-
  A map of bounded capacity that drops its least recently used entry.

  The entries stand most recently used first; that no key occurs twice and that the capacity is
  kept are fields of the structure, so no operation can break them. `get?` is the lookup,
  `touch` the refresh of recency a hit of `Get` does, `add` inserts at the front and returns the
  entry it had to drop, `keys` lists the keys oldest first.
-/
import Mathlib.Tactic

structure Lru (κ ν : Type) (cap : Nat) where
  entries : List (κ × ν)
  nodup : (entries.map Prod.fst).Nodup
  length_le : entries.length ≤ cap

namespace Lru

variable {κ ν : Type} {cap : Nat}

@[ext] theorem ext {c d : Lru κ ν cap} (h : c.entries = d.entries) : c = d := by
  cases c
  cases d
  cases h
  rfl

/-- The empty map. -/
def empty : Lru κ ν cap := ⟨[], List.nodup_nil, Nat.zero_le _⟩

/-- The keys, oldest first. -/
def keys (c : Lru κ ν cap) : List κ := (c.entries.map Prod.fst).reverse

@[simp] theorem mem_keys {c : Lru κ ν cap} {k : κ} : k ∈ c.keys ↔ ∃ v, (k, v) ∈ c.entries := by
  simp [keys]

/-- With unique keys an entry is determined by its key. -/
theorem value_unique {c : Lru κ ν cap} {k : κ} {v w : ν} (hv : (k, v) ∈ c.entries)
    (hw : (k, w) ∈ c.entries) : v = w := by
  have h := List.inj_on_of_nodup_map c.nodup hv hw rfl
  exact (Prod.mk.inj h).2

variable [DecidableEq κ]

/-- The value stored under `k`. -/
def get? (c : Lru κ ν cap) (k : κ) : Option ν :=
  (c.entries.find? fun e => e.1 = k).map Prod.snd

/-- The entries other than the one under `k`. -/
def others (c : Lru κ ν cap) (k : κ) : List (κ × ν) := c.entries.filter fun e => e.1 ≠ k

theorem mem_others {c : Lru κ ν cap} {k : κ} {e : κ × ν} :
    e ∈ c.others k ↔ e ∈ c.entries ∧ e.1 ≠ k := by
  simp [others]

theorem others_nodup (c : Lru κ ν cap) (k : κ) : ((c.others k).map Prod.fst).Nodup :=
  (List.filter_sublist.map Prod.fst).nodup c.nodup

theorem cons_others_nodup (c : Lru κ ν cap) (k : κ) (v : ν) :
    (((k, v) :: c.others k).map Prod.fst).Nodup := by
  rw [List.map_cons, List.nodup_cons]
  refine ⟨?_, c.others_nodup k⟩
  intro h
  obtain ⟨e, he, hk⟩ := List.mem_map.mp h
  exact (mem_others.mp he).2 hk

theorem get?_eq_some_iff {c : Lru κ ν cap} {k : κ} {v : ν} :
    c.get? k = some v ↔ (k, v) ∈ c.entries := by
  unfold get?
  constructor
  · intro h
    obtain ⟨e, he, rfl⟩ := Option.map_eq_some_iff.mp h
    have hk : e.1 = k := by simpa using List.find?_some he
    rw [← hk]
    exact List.mem_of_find?_eq_some he
  · intro h
    have hs : (c.entries.find? fun e => e.1 = k).isSome :=
      List.find?_isSome.mpr ⟨_, h, by simp⟩
    obtain ⟨e, he⟩ := Option.isSome_iff_exists.mp hs
    have hk : e.1 = k := by simpa using List.find?_some he
    have hm : (k, e.2) ∈ c.entries := by
      rw [← hk]
      exact List.mem_of_find?_eq_some he
    rw [he, Option.map_some, value_unique hm h]

theorem get?_eq_none_iff {c : Lru κ ν cap} {k : κ} : c.get? k = none ↔ k ∉ c.keys := by
  rw [mem_keys, Option.eq_none_iff_forall_not_mem]
  constructor
  · rintro h ⟨v, hv⟩
    exact h v (get?_eq_some_iff.mpr hv)
  · intro h v hv
    exact h ⟨v, get?_eq_some_iff.mp hv⟩

/-- The refresh of recency of a hit: the entry under `k` moves to the front. -/
def touch (c : Lru κ ν cap) (k : κ) : Lru κ ν cap :=
  match hg : c.get? k with
  | none => c
  | some v => ⟨(k, v) :: c.others k, c.cons_others_nodup k v, by
      have hm := get?_eq_some_iff.mp hg
      have hlt : (c.others k).length < c.entries.length :=
        List.length_filter_lt_length_iff_exists.mpr ⟨_, hm, by simp⟩
      have := c.length_le
      simp only [List.length_cons]
      omega⟩

theorem mem_touch {c : Lru κ ν cap} {k : κ} {e : κ × ν} :
    e ∈ (c.touch k).entries ↔ e ∈ c.entries := by
  unfold touch
  split
  · rfl
  · rename_i v hg
    have hm := get?_eq_some_iff.mp hg
    simp only [List.mem_cons, mem_others]
    constructor
    · rintro (rfl | h)
      · exact hm
      · exact h.1
    · intro h
      by_cases hk : e.1 = k
      · left
        obtain ⟨k', w⟩ := e
        cases hk
        rw [value_unique h hm]
      · exact .inr ⟨h, hk⟩

@[simp] theorem get?_touch (c : Lru κ ν cap) (k k' : κ) : (c.touch k).get? k' = c.get? k' := by
  ext v
  simp only [get?_eq_some_iff, mem_touch]

theorem length_touch (c : Lru κ ν cap) (k : κ) : (c.touch k).entries.length = c.entries.length := by
  have h := (c.touch k).nodup.of_map
  exact ((List.perm_ext_iff_of_nodup h c.nodup.of_map).mpr fun e => mem_touch).length_eq

/-- Insert `v` under `k` at the front; the second component is the entry dropped to keep the
    capacity. -/
def add (c : Lru κ ν cap) (k : κ) (v : ν) : Lru κ ν cap × Option (κ × ν) :=
  if h : ((k, v) :: c.others k).length ≤ cap then
    (⟨(k, v) :: c.others k, c.cons_others_nodup k v, h⟩, none)
  else
    (⟨((k, v) :: c.others k).dropLast,
      ((List.dropLast_sublist _).map Prod.fst).nodup (c.cons_others_nodup k v), by
        have h1 : (c.others k).length ≤ c.entries.length := List.length_filter_le _ _
        have h2 := c.length_le
        simp only [List.length_dropLast, List.length_cons]
        omega⟩,
      ((k, v) :: c.others k).getLast?)

/-- What `add` leaves in the map: nothing but the new entry and old entries under other keys. -/
theorem mem_add {c : Lru κ ν cap} {k : κ} {v : ν} {e : κ × ν} (h : e ∈ (c.add k v).1.entries) :
    e = (k, v) ∨ (e ∈ c.entries ∧ e.1 ≠ k) := by
  have hm : e ∈ (k, v) :: c.others k := by
    unfold add at h
    split at h
    · exact h
    · exact List.mem_of_mem_dropLast h
  rcases List.mem_cons.mp hm with h | h
  · exact .inl h
  · exact .inr (mem_others.mp h)

/-- What is found after an addition: the new value, or an old one under another key. -/
theorem get?_add {c : Lru κ ν cap} {k q : κ} {v w : ν} (h : (c.add k v).1.get? q = some w) :
    (q = k ∧ w = v) ∨ (q ≠ k ∧ c.get? q = some w) := by
  rcases mem_add (get?_eq_some_iff.mp h) with he | he
  · exact .inl ⟨congrArg Prod.fst he, congrArg Prod.snd he⟩
  · exact .inr ⟨he.2, get?_eq_some_iff.mpr he.1⟩

/-- What `add` keeps: an old entry under another key stays or is the one dropped. -/
theorem add_keeps {c : Lru κ ν cap} {k : κ} {v : ν} {e : κ × ν} (he : e ∈ c.entries)
    (hk : e.1 ≠ k) : e ∈ (c.add k v).1.entries ∨ (c.add k v).2 = some e := by
  have hm : e ∈ (k, v) :: c.others k := List.mem_cons_of_mem _ (mem_others.mpr ⟨he, hk⟩)
  unfold add
  split
  · exact .inl hm
  · have hne : (k, v) :: c.others k ≠ [] := List.cons_ne_nil _ _
    rw [← List.dropLast_append_getLast hne, List.mem_append, List.mem_singleton] at hm
    rcases hm with h | h
    · exact .inl h
    · right
      simp only
      rw [List.getLast?_eq_some_getLast hne, h]

/-- The dropped entry was in the map, or is the new one when the capacity is zero. -/
theorem mem_of_add_dropped {c : Lru κ ν cap} {k : κ} {v : ν} {e : κ × ν}
    (h : (c.add k v).2 = some e) : e = (k, v) ∨ (e ∈ c.entries ∧ e.1 ≠ k) := by
  unfold add at h
  split at h
  · cases h
  · have hm : e ∈ (k, v) :: c.others k := List.mem_of_getLast? h
    rcases List.mem_cons.mp hm with h | h
    · exact .inl h
    · exact .inr (mem_others.mp h)

/-- The dropped entry is gone. -/
theorem dropped_not_mem {c : Lru κ ν cap} {k : κ} {v : ν} {e : κ × ν}
    (h : (c.add k v).2 = some e) : ∀ e' ∈ (c.add k v).1.entries, e'.1 ≠ e.1 := by
  have hnd := c.cons_others_nodup k v
  unfold add at h ⊢
  split at h
  · cases h
  · rename_i hc
    rw [dif_neg hc]
    intro e' he' heq
    have hne : (k, v) :: c.others k ≠ [] := List.cons_ne_nil _ _
    have hlast : ((k, v) :: c.others k).getLast hne = e := by
      rw [List.getLast?_eq_some_getLast hne] at h
      exact Option.some.inj h
    rw [← List.dropLast_append_getLast hne, List.map_append, List.nodup_append, hlast] at hnd
    exact hnd.2.2 _ (List.mem_map_of_mem he') _ (by simp) heq

/-- With a positive capacity the new entry is in the map. -/
theorem self_mem_add {c : Lru κ ν cap} {k : κ} {v : ν} (hcap : 0 < cap) :
    (k, v) ∈ (c.add k v).1.entries := by
  unfold add
  split
  · exact List.mem_cons_self
  · rename_i hc
    have hne : c.others k ≠ [] := by
      intro ho
      simp only [ho, List.length_cons, List.length_nil] at hc
      omega
    change (k, v) ∈ ((k, v) :: c.others k).dropLast
    rw [List.dropLast_cons_of_ne_nil hne]
    exact List.mem_cons_self

/-- The new value is found. -/
theorem get?_add_self {c : Lru κ ν cap} (hcap : 0 < cap) (k : κ) (v : ν) :
    (c.add k v).1.get? k = some v :=
  get?_eq_some_iff.mpr (self_mem_add hcap)

/-- When nothing is dropped every other value is still found. -/
theorem get?_add_of_ne {c : Lru κ ν cap} {k q : κ} {v w : ν} (hd : (c.add k v).2 = none)
    (hne : q ≠ k) (h : c.get? q = some w) : (c.add k v).1.get? q = some w := by
  rcases add_keeps (get?_eq_some_iff.mp h) hne with he | he
  · exact get?_eq_some_iff.mpr he
  · rw [hd] at he
    cases he

theorem others_eq_self {c : Lru κ ν cap} {k : κ} (h : c.get? k = none) :
    c.others k = c.entries := by
  refine List.filter_eq_self.mpr fun e he => ?_
  have hne : e.1 ≠ k := by
    intro hk
    exact get?_eq_none_iff.mp h (mem_keys.mpr ⟨e.2, hk ▸ he⟩)
  simpa using hne

/-- A new key makes the map one longer, up to the capacity. -/
theorem length_add {c : Lru κ ν cap} {k : κ} {v : ν} (h : c.get? k = none) :
    (c.add k v).1.entries.length = min (c.entries.length + 1) cap := by
  have hle := c.length_le
  have hlen := congrArg List.length (others_eq_self h)
  unfold add
  split
  · rename_i hc
    simp only [List.length_cons, hlen] at hc ⊢
    omega
  · rename_i hc
    simp only [List.length_cons, List.length_dropLast, hlen] at hc ⊢
    omega

/-- A new key in a full map drops the oldest entry. -/
theorem add_drops {c : Lru κ ν cap} {k : κ} {v : ν} (h : c.get? k = none)
    (hfull : c.entries.length = cap) : (c.add k v).2 = ((k, v) :: c.entries).getLast? := by
  unfold add
  rw [dif_neg]
  · exact congrArg (fun es => ((k, v) :: es).getLast?) (others_eq_self h)
  · rw [List.length_cons, others_eq_self h, hfull]
    exact Nat.not_succ_le_self cap

/-- A new key in a map with room drops none. -/
theorem add_entries {c : Lru κ ν cap} {k : κ} {v : ν} (h : c.get? k = none)
    (hroom : c.entries.length < cap) : (c.add k v).1.entries = (k, v) :: c.entries := by
  unfold add
  rw [dif_pos]
  · exact congrArg (List.cons _) (others_eq_self h)
  · rw [List.length_cons, others_eq_self h]
    exact hroom

end Lru
