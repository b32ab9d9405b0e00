import HectoOs.Fatfs.Volume

/-! # Runs of allocating and freeing

The files of a volume extend their chains, cut them off and give them up, in any order. Seen from
outside, a volume is then a number of free clusters and the length of each chain.
-/

open HectoOs.Lib

namespace HectoOs.Fatfs

/-! ## What files do with clusters -/

inductive ChainOp (ι : Type) where
  | extend (i : ι) (zero : Bool)
  | cut (i : ι) (n : Nat)
  | release (i : ι)

/-- A volume, and the chains that its files have. -/
structure Chained (ι : Type) where
  fs : FileSystem
  chains : ι → List Nat

/-- The chain that is left is kept even where the volume reports an error. -/
def finish {ι α : Type} (chains : ι → List Nat) (next : α → ι → List Nat) :
    Except Panic (Except Error α × FileSystem) → Except Panic (Chained ι × Except Error Unit)
  | .error p => .error p
  | .ok (.ok a, fs) => .ok (⟨fs, next a⟩, .ok ())
  | .ok (.error e, fs) => .ok (⟨fs, chains⟩, .error e)

namespace Chained

variable {ι : Type} [DecidableEq ι]

def step (s : Chained ι) : ChainOp ι → Except Panic (Chained ι × Except Error Unit)
  | .extend i zero => finish s.chains (fun c => Function.update s.chains i (s.chains i ++ [c]))
      (FileSystem.alloc_cluster (s.chains i).getLast? zero s.fs)
  | .cut i n =>
    match (s.chains i)[n]? with
    | some c => finish s.chains (fun _ => Function.update s.chains i ((s.chains i).take (n + 1)))
        (FileSystem.truncate_cluster_chain c s.fs)
    | none => .ok (s, .ok ())
  | .release i =>
    match (s.chains i).head? with
    | some c =>
      finish s.chains (fun _ => Function.update s.chains i [])
        (FileSystem.free_cluster_chain c s.fs)
    | none => .ok (s, .ok ())

end Chained

/-! ## What is seen of it -/

structure Capacity (ι : Type) where
  length : ι → Nat
  free : Nat

namespace Capacity

variable {ι : Type} [DecidableEq ι]

def step (s : Capacity ι) : ChainOp ι → Capacity ι × Except Error Unit
  | .extend i _ =>
    if s.free = 0 then (s, .error no_space)
    else (⟨Function.update s.length i (s.length i + 1), s.free - 1⟩, .ok ())
  | .cut i n =>
    if n < s.length i then (⟨Function.update s.length i (n + 1), s.free + (s.length i - (n + 1))⟩,
      .ok ()) else (s, .ok ())
  | .release i => (⟨Function.update s.length i 0, s.free + s.length i⟩, .ok ())

/-- All answers, and the capacity at the end. -/
def run (s : Capacity ι) : List (ChainOp ι) → Capacity ι × List (Except Error Unit)
  | [] => (s, [])
  | op :: ops => ((run (s.step op).1 ops).1, (s.step op).2 :: (run (s.step op).1 ops).2)

end Capacity

section Runs

variable {ι : Type} [DecidableEq ι] {s : Chained ι} {t : Capacity ι}

/-- The volume is sound, and its capacity is `t`. -/
structure Chained.Sound (s : Chained ι) (t : Capacity ι) : Prop where
  volume : Volume s.fs s.chains t.free
  length : ∀ i, (s.chains i).length = t.length i

theorem lengths_update {chains : ι → List Nat} {length : ι → Nat}
    (h : ∀ i, (chains i).length = length i) (i : ι) (l : List Nat) :
    ∀ j, (Function.update chains i l j).length = Function.update length i l.length j := by
  intro j
  rw [Function.update_apply, Function.update_apply]
  split
  · rfl
  · exact h j

theorem extend_sound (h : s.Sound t) (i : ι) (zero : Bool) :
    ∃ s', s.step (.extend i zero) = .ok (s', (t.step (.extend i zero)).2) ∧
    s'.Sound (t.step (.extend i zero)).1 := by
  obtain ⟨hfull, hspace⟩ := @alloc_cluster_volume _ _ _ _ _ zero i _ h.volume rfl
  rw [Chained.step, Capacity.step]
  by_cases hfree : t.free = 0
  · rw [hfull hfree, if_pos hfree]
    exact ⟨s, rfl, h⟩
  · obtain ⟨c, fs', hrun, hall⟩ := hspace (Nat.pos_of_ne_zero hfree)
    rw [hrun, if_neg hfree]
    refine ⟨_, rfl, hall.volume, ?_⟩
    have hlen := lengths_update h.length i (s.chains i ++ [c])
    rwa [List.length_append, h.length i] at hlen

theorem cut_sound (h : s.Sound t) (i : ι) (n : Nat) :
    ∃ s', s.step (.cut i n) = .ok (s', (t.step (.cut i n)).2) ∧
    s'.Sound (t.step (.cut i n)).1 := by
  have hlen := h.length i
  rw [Chained.step, Capacity.step]
  by_cases hn : n < (s.chains i).length
  · have hkeep : (s.chains i).take n ++ [(s.chains i)[n]] = (s.chains i).take (n + 1) :=
      List.take_concat_get' _ n hn
    obtain ⟨fs', hrun, hfreed⟩ := truncate_cluster_chain_spec h.volume (chain_split hn)
    simp only [List.getElem?_eq_getElem hn]
    rw [hrun, if_pos (hlen ▸ hn)]
    rw [hkeep, List.length_drop, hlen] at hfreed
    refine ⟨_, rfl, hfreed.volume, ?_⟩
    have hlens := lengths_update h.length i ((s.chains i).take (n + 1))
    rwa [List.length_take, Nat.min_eq_left hn] at hlens
  · simp only [List.getElem?_eq_none (Nat.le_of_not_lt hn)]
    rw [if_neg (hlen ▸ hn)]
    exact ⟨s, rfl, h⟩

theorem release_sound (h : s.Sound t) (i : ι) :
    ∃ s', s.step (.release i) = .ok (s', (t.step (.release i)).2) ∧
    s'.Sound (t.step (.release i)).1 := by
  have hlen := h.length i
  rw [Chained.step, Capacity.step]
  cases hhead : (s.chains i).head? with
  | some c =>
    obtain ⟨fs', hrun, hfreed⟩ := free_cluster_chain_spec h.volume hhead
    rw [hlen] at hfreed
    refine ⟨⟨fs', Function.update s.chains i []⟩, ?_, hfreed.volume, lengths_update h.length i []⟩
    simp only [hrun]
    rfl
  | none =>
    have hnil := List.head?_eq_none_iff.mp hhead
    rw [hnil, List.length_nil] at hlen
    refine ⟨s, rfl, ?_⟩
    rw [← hlen, Nat.add_zero, hlen, Function.update_eq_self]
    exact h

theorem step_sound (h : s.Sound t) (op : ChainOp ι) :
    ∃ s', s.step op = .ok (s', (t.step op).2) ∧ s'.Sound (t.step op).1 := by
  cases op with
  | extend i zero => exact extend_sound h i zero
  | cut i n => exact cut_sound h i n
  | release i => exact release_sound h i

end Runs

/-! ## Every run -/

/-- Whatever files do with their chains, no step panics, and the answers are those of the capacity:
only an extension fails, and only when no cluster is free. At the end the chains are still apart and
linked in order, every other cluster is free or bad, the copies of the table are the same, and the
free count is exact. -/
theorem chains_run {ι : Type} [DecidableEq ι] {s : Chained ι} {t : Capacity ι}
    (h : s.Sound t) (ops : List (ChainOp ι)) :
    ∃ s', run Chained.step s ops = .ok (s', (t.run ops).2) ∧ s'.Sound (t.run ops).1 := by
  induction ops generalizing s t with
  | nil => exact ⟨s, rfl, h⟩
  | cons op ops ih =>
    obtain ⟨s₁, hstep, h₁⟩ := step_sound h op
    obtain ⟨s', hrun, h'⟩ := ih h₁
    refine ⟨s', ?_, h'⟩
    rw [run, hstep]
    simp only [hrun]
    rfl

/-- A FAT12 volume with two clusters, both free, of one sector each. -/
def two_clusters : FileSystem where
  device := .pieces 4
  disk := fun _ => 0#8
  options := ⟨false, ⟨⟨1980#16, 1#16, 1#16⟩, ⟨⟨1980#16, 1#16, 1#16⟩, ⟨0#16, 0#16, 0#16, 0#16⟩⟩⟩⟩
  fat_type := .Fat12
  bpb := {
    bytes_per_sector := 512#16
    sectors_per_cluster := 1#8
    reserved_sectors := 1#16
    fats := 2#8
    root_entries := 16#16
    total_sectors_16 := 6#16
    media := 0xF8#8
    sectors_per_fat_16 := 1#16
    sectors_per_track := 0#16
    heads := 0#16
    hidden_sectors := 0#32
    total_sectors_32 := 0#32
    sectors_per_fat_32 := 0#32
    extended_flags := 0#16
    fs_version := 0#16
    root_dir_first_cluster := 0#32
    fs_info_sector := 0#16
    backup_boot_sector := 0#16
    reserved_0 := List.Vector.replicate 12 0#8
    drive_num := 0#8
    reserved_1 := 0#8
    ext_sig := 0x29#8
    volume_id := 0#32
    volume_label := List.Vector.replicate 11 0x20#8
    fs_type_label := List.Vector.replicate 8 0x20#8 }
  first_data_sector := 4
  root_dir_sectors := 1
  total_clusters := 2
  fs_info := ⟨some 2, none, false⟩
  current_status_flags := ⟨false, false⟩

theorem two_clusters_free (c : Nat) (hc : InRange two_clusters.stop c) :
    two_clusters.clusters c = .Free := by
  obtain ⟨h2, h4⟩ := hc
  simp only [FileSystem.stop, two_clusters, RESERVED_FAT_ENTRIES] at h2 h4
  interval_cases c <;> decide

theorem two_clusters_geometry : Geometry two_clusters := by
  have hcovers : Covers two_clusters.fat_type two_clusters.stop two_clusters.fat_slice := by
    refine ⟨⟨Device.pieces_serves (le_refl 4), by decide, by decide⟩, ?_, by decide⟩
    unfold Fits
    decide
  refine ⟨hcovers, by decide, by decide, by decide, ?_⟩
  rintro c ⟨h2, h4⟩
  simp only [FileSystem.stop, two_clusters, RESERVED_FAT_ENTRIES] at h2 h4
  interval_cases c <;> decide

theorem two_clusters_count : free_count two_clusters.clusters two_clusters.stop = 2 := by decide

theorem two_clusters_sound {ι : Type} :
    (⟨two_clusters, fun _ => []⟩ : Chained ι).Sound ⟨fun _ => 0, 2⟩ := by
  refine ⟨⟨two_clusters_geometry, fun _ _ _ _ => rfl, ?_, two_clusters_count, ?_, ?_⟩, fun _ => rfl⟩
  · refine ⟨fun _ => trivial, fun _ => List.nodup_nil, ?_, ?_,
      fun c hc => .inl (two_clusters_free c hc)⟩
    · intro _ _ _ c hc
      exact absurd hc List.not_mem_nil
    · intro _ c hc
      exact absurd hc List.not_mem_nil
  · rintro n ⟨rfl⟩
    rfl
  · intro n hn
    cases hn

/-- Two files take both clusters, the next extension fails, and giving up the first file makes room
again. -/
theorem chains_run_two : ∃ s', run Chained.step (⟨two_clusters, fun _ => []⟩ : Chained Bool)
    [.extend true false, .extend false true, .extend true false, .release true,
      .extend false false] =
      .ok (s', [.ok (), .ok (), .error no_space, .ok (), .ok ()]) ∧
      (s'.chains false).length = 2 := by
  obtain ⟨s', hrun, hs⟩ := chains_run two_clusters_sound
    [.extend true false, .extend false true, .extend true false, .release true, .extend false false]
  exact ⟨s', hrun, hs.length false⟩

end HectoOs.Fatfs
