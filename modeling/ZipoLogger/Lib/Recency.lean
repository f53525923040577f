/-
  The keys of a least-recently-used map as a function of the uses of its keys.

  `recent ks` lists the distinct keys of the uses `ks` (oldest first), most recent first. A map
  whose every use is a `touch` of a present key or an `add` keeps `Holds ks`: its keys are the
  first `cap` of `recent ks` (`Holds.touch`, `Holds.add`). A key is among them exactly when
  fewer than `cap` distinct others were used since (`Holds.present_iff`).
-/
import ZipoLogger.Lib.Lru

namespace Recency

variable {κ ν : Type}

/-- A use of `k` splits at the last one. -/
theorem exists_last_use {ks : List κ} {k : κ} (h : k ∈ ks) :
    ∃ pre post, ks = pre ++ k :: post ∧ k ∉ post := by
  obtain ⟨as, bs, hks, hno⟩ := List.eq_append_cons_of_mem (List.mem_reverse.mpr h)
  refine ⟨bs.reverse, as.reverse, ?_, fun hk => hno (List.mem_reverse.mp hk)⟩
  rw [← List.reverse_reverse ks, hks]
  simp

variable [DecidableEq κ]

/-- The distinct keys of a list of uses, most recent first. -/
def recent (ks : List κ) : List κ := ks.foldl (fun r k => k :: r.filter fun x => x ≠ k) []

theorem recent_append_singleton (ks : List κ) (k : κ) :
    recent (ks ++ [k]) = k :: (recent ks).filter fun x => x ≠ k := by
  rw [recent, List.foldl_append]
  rfl

/-- A second use in a row changes nothing. -/
theorem recent_append_self (ks : List κ) (k : κ) :
    recent (ks ++ [k] ++ [k]) = recent (ks ++ [k]) := by
  rw [recent_append_singleton, recent_append_singleton, List.filter_cons_of_neg (by simp),
    List.filter_filter]
  simp

theorem mem_recent {ks : List κ} {k : κ} : k ∈ recent ks ↔ k ∈ ks := by
  induction ks using List.reverseRecOn with
  | nil => rfl
  | append_singleton ks x ih =>
    rw [recent_append_singleton, List.mem_cons, List.mem_filter, List.mem_append,
      List.mem_singleton, ih]
    by_cases hk : k = x
    · simp [hk]
    · simp [hk]

theorem recent_nodup (ks : List κ) : (recent ks).Nodup := by
  induction ks using List.reverseRecOn with
  | nil => exact List.nodup_nil
  | append_singleton ks x ih =>
    rw [recent_append_singleton, List.nodup_cons]
    exact ⟨by simp, ih.filter _⟩

theorem length_recent (ks : List κ) : (recent ks).length = ks.toFinset.card := by
  have hset : (recent ks).toFinset = ks.toFinset := by
    ext k
    rw [List.mem_toFinset, List.mem_toFinset, mem_recent]
  rw [← hset, List.toFinset_card_of_nodup (recent_nodup ks)]

/-- Behind the last use of `k` stand the other keys used since, then `k`. -/
theorem recent_append_cons (pre post : List κ) {k : κ} (h : k ∉ post) :
    ∃ rest, recent (pre ++ k :: post) = recent post ++ k :: rest := by
  induction post using List.reverseRecOn with
  | nil => exact ⟨_, recent_append_singleton pre k⟩
  | append_singleton post x ih =>
    have hpost : k ∉ post := fun hk => h (List.mem_append_left _ hk)
    have hx : k ≠ x := fun he => h (he ▸ List.mem_append_right _ List.mem_cons_self)
    obtain ⟨rest, hrest⟩ := ih hpost
    refine ⟨rest.filter fun y => y ≠ x, ?_⟩
    have happ : pre ++ k :: (post ++ [x]) = (pre ++ k :: post) ++ [x] := by simp
    rw [happ, recent_append_singleton, hrest, recent_append_singleton, List.filter_append,
      List.filter_cons_of_pos (by simpa using hx), List.cons_append]

/-- The place of a key in the order of recency. -/
theorem mem_take_recent {pre post : List κ} {k : κ} (h : k ∉ post) (cap : Nat) :
    k ∈ (recent (pre ++ k :: post)).take cap ↔ post.toFinset.card < cap := by
  obtain ⟨rest, hrest⟩ := recent_append_cons pre post h
  have hno : k ∉ recent post := fun hk => h (mem_recent.mp hk)
  rw [hrest, ← length_recent, List.take_append, List.mem_append]
  constructor
  · intro hk
    rcases hk with hk | hk
    · exact absurd (List.mem_of_mem_take hk) hno
    · by_contra hle
      rw [Nat.sub_eq_zero_of_le (Nat.not_lt.mp hle)] at hk
      cases hk
  · intro hlt
    right
    obtain ⟨n, hn⟩ : ∃ n, cap - (recent post).length = n + 1 := ⟨_, (Nat.sub_add_cancel
      (Nat.sub_pos_of_lt hlt)).symm⟩
    rw [hn, List.take_succ_cons]
    exact List.mem_cons_self

/-- Taking a key out of a list without repetitions before or after it is cut. -/
theorem take_filter_take {r : List κ} (hr : r.Nodup) (k : κ) (n : Nat) :
    ((r.take (n + 1)).filter fun x => x ≠ k).take n = (r.filter fun x => x ≠ k).take n := by
  induction r generalizing n with
  | nil => rfl
  | cons a r ih =>
    obtain ⟨ha, hr'⟩ := List.nodup_cons.mp hr
    by_cases hk : a = k
    · have hfix : r.filter (fun x => x ≠ k) = r := by
        rw [List.filter_eq_self]
        intro x hx
        have hne : x ≠ k := fun he => ha (hk ▸ he ▸ hx)
        simpa using hne
      have hfix' : (r.take n).filter (fun x => x ≠ k) = r.take n := by
        rw [List.filter_eq_self]
        intro x hx
        have hne : x ≠ k := fun he => ha (hk ▸ he ▸ List.mem_of_mem_take hx)
        simpa using hne
      rw [List.take_succ_cons, List.filter_cons_of_neg (by simp [hk]),
        List.filter_cons_of_neg (by simp [hk]), hfix, hfix', List.take_take, Nat.min_self]
    · rw [List.take_succ_cons, List.filter_cons_of_pos (by simp [hk]),
        List.filter_cons_of_pos (by simp [hk])]
      rcases n with _ | n
      · rfl
      · rw [List.take_succ_cons, List.take_succ_cons, ih hr' n]

end Recency

namespace Lru

open Recency

variable {κ ν : Type} [DecidableEq κ] {cap : Nat}

/-- The keys, most recent first, are those of the latest uses. -/
def Holds (c : Lru κ ν cap) (ks : List κ) : Prop :=
  c.entries.map Prod.fst = (recent ks).take cap

theorem holds_empty : (empty : Lru κ ν cap).Holds [] := by
  rw [Holds, recent, List.foldl_nil, List.take_nil]
  rfl

theorem map_others (c : Lru κ ν cap) (k : κ) :
    (c.others k).map Prod.fst = (c.entries.map Prod.fst).filter fun x => x ≠ k := by
  rw [others, List.filter_map]
  rfl

theorem Holds.mem_iff {c : Lru κ ν cap} {ks : List κ} (h : c.Holds ks) {k : κ} :
    (∃ v, c.get? k = some v) ↔ k ∈ (recent ks).take cap := by
  rw [← h, List.mem_map]
  constructor
  · intro hv
    obtain ⟨v, hv⟩ := hv
    exact ⟨_, get?_eq_some_iff.mp hv, rfl⟩
  · intro he
    obtain ⟨e, he, rfl⟩ := he
    exact ⟨e.2, get?_eq_some_iff.mpr he⟩

/-- A hit counts as a use. -/
theorem Holds.touch {c : Lru κ ν (cap + 1)} {ks : List κ} (h : c.Holds ks) {k : κ} {v : ν}
    (hv : c.get? k = some v) : (c.touch k).Holds (ks ++ [k]) := by
  have hentries : (c.touch k).entries = (k, v) :: c.others k := by
    unfold Lru.touch
    split
    · rename_i hn
      rw [hn] at hv
      cases hv
    · rename_i w hw
      obtain rfl : w = v := Option.some.inj (hw.symm.trans hv)
      rfl
  have hlen : ((c.others k).map Prod.fst).length ≤ cap := by
    have hlt : (c.others k).length < c.entries.length :=
      List.length_filter_lt_length_iff_exists.mpr ⟨_, get?_eq_some_iff.mp hv, by simp⟩
    have hle := c.length_le
    rw [List.length_map]
    omega
  have htake := take_filter_take (recent_nodup ks) k cap
  rw [← h, ← map_others, List.take_of_length_le hlen] at htake
  rw [Holds, hentries, recent_append_singleton, List.take_succ_cons, List.map_cons, htake]

/-- So does an addition. -/
theorem Holds.add {c : Lru κ ν (cap + 1)} {ks : List κ} (h : c.Holds ks) (k : κ) (v : ν) :
    (c.add k v).1.Holds (ks ++ [k]) := by
  have hentries : (c.add k v).1.entries = ((k, v) :: c.others k).take (cap + 1) := by
    have hle := c.length_le
    have hlen : (c.others k).length ≤ c.entries.length := List.length_filter_le _ _
    unfold Lru.add
    split
    · rename_i hc
      rw [List.take_of_length_le hc]
    · rename_i hc
      rw [List.length_cons] at hc
      have hfull : ((k, v) :: c.others k).length - 1 = cap + 1 := by
        rw [List.length_cons]
        omega
      show ((k, v) :: c.others k).dropLast = _
      rw [List.dropLast_eq_take, hfull]
  have htake := take_filter_take (recent_nodup ks) k cap
  rw [← h, ← map_others] at htake
  rw [Holds, hentries, recent_append_singleton, List.take_succ_cons, List.take_succ_cons,
    List.map_cons, List.map_take, htake]

/-- A key is present exactly when it was used, and fewer than the capacity of distinct others
    were used since. -/
theorem Holds.present_iff {c : Lru κ ν cap} {ks : List κ} (h : c.Holds ks) {k : κ} :
    (∃ v, c.get? k = some v) ↔
      ∃ pre post, ks = pre ++ k :: post ∧ k ∉ post ∧ post.toFinset.card < cap := by
  rw [h.mem_iff]
  constructor
  · intro hk
    have hmem : k ∈ ks := mem_recent.mp (List.mem_of_mem_take hk)
    obtain ⟨pre, post, hks, hno⟩ := exists_last_use hmem
    rw [hks] at hk
    exact ⟨pre, post, hks, hno, (mem_take_recent hno cap).mp hk⟩
  · intro hp
    obtain ⟨pre, post, rfl, hno, hlt⟩ := hp
    exact (mem_take_recent hno cap).mpr hlt

end Lru
