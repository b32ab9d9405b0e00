import Mathlib.Data.Finset.Card
import Mathlib.Order.Interval.Finset.Nat
import HectoOs.Fatfs.FreeClusters

/-! # Chains of clusters (`fatfs/src/table.rs`)

The iterator follows the links of a chain, and can cut the chain off or free it. A volume is sound
when the chains of its files are apart from each other and make up everything that is in use.
-/

open HectoOs.Lib

namespace HectoOs.Fatfs

open DiskSlice

/-! ## The iterator -/

structure ClusterIterator where
  fat_type : FatType
  cluster : Option Nat
  err : Bool

namespace ClusterIterator

def new (fat_type : FatType) (cluster : Nat) : ClusterIterator := ⟨fat_type, some cluster, false⟩

/-- The item that the iterator yields, and the iterator after it. -/
def next (it : ClusterIterator) : SliceM (Option (Except Error Nat) × ClusterIterator) := do
  if it.err then return (none, it)
  match it.cluster with
  | some current_cluster =>
    match ← attempt (get_next_cluster it.fat_type current_cluster) with
    | .ok next_cluster => return (next_cluster.map .ok, { it with cluster := next_cluster })
    | .error err => return (some (.error err), { it with err := true })
  | none => return (none, it)

/-- `while let Some(n) = self.cluster`, for at most so many `turns`. The result says how many
clusters have been freed. -/
def free_loop : Nat → ClusterIterator → Nat → SliceM Nat
  | 0, _, _ => throwThe Panic .endless
  | turns + 1, it, num_free => do
    match it.cluster with
    | some n =>
      let (_, it) ← it.next
      write_fat it.fat_type n .Free
      free_loop turns it (num_free + 1)
    | none => return num_free

/-- A turn frees a cluster whose entry has been in use, or is the last one. So no run needs more
turns than the table has bytes, and one. -/
def free (it : ClusterIterator) : SliceM Nat := do
  let s ← getThe DiskSlice
  free_loop (s.size + 2) it 0

def truncate (it : ClusterIterator) : SliceM Nat := do
  match it.cluster with
  | some n =>
    let (_, it) ← it.next
    write_fat it.fat_type n .EndOfChain
    it.free
  | none => return 0

end ClusterIterator

/-! ## Chains -/

/-- What the entry in front of the clusters `l` holds. -/
def successor (l : List Nat) : FatValue := l.head?.elim .EndOfChain .Data

theorem chain_split {l : List Nat} {k : Nat} (h : k < l.length) :
    l = l.take k ++ l[k] :: l.drop (k + 1) := by
  rw [← List.drop_eq_getElem_cons h, List.take_append_drop]

/-- The clusters of `l` are linked in this order, and the last one ends the chain. -/
def Links (f : Nat → FatValue) : List Nat → Prop
  | [] => True
  | c :: l => f c = successor l ∧ Links f l

/-- The entries after the clusters of `l` have been freed. -/
def free_all (f : Nat → FatValue) (l : List Nat) : Nat → FatValue :=
  fun c => if c ∈ l then .Free else f c

/-- The entries after `c` has been put behind `prev`. -/
def put (f : Nat → FatValue) (prev : Option Nat) (c : Nat) : Nat → FatValue :=
  match prev with
  | some p => Function.update (Function.update f c .EndOfChain) p (.Data c)
  | none => Function.update f c .EndOfChain

/-- The entries after `c` has been put behind the last cluster of `l`. -/
def append (f : Nat → FatValue) (l : List Nat) (c : Nat) : Nat → FatValue := put f l.getLast? c

section Links

variable {f f' : Nat → FatValue} {l l₁ l₂ : List Nat} {c d : Nat}

theorem successor_ne_free (l : List Nat) : successor l ≠ .Free := by
  cases l <;> simp [successor]

theorem Links.congr (h : Links f l) (hs : ∀ c ∈ l, f' c = f c) : Links f' l := by
  induction l with
  | nil => trivial
  | cons c l ih =>
    obtain ⟨hc, hl⟩ := h
    refine ⟨(hs c List.mem_cons_self).trans hc, ih hl fun d hd => hs d (List.mem_cons_of_mem _ hd)⟩

theorem Links.not_free (h : Links f l) (hc : c ∈ l) : f c ≠ .Free := by
  induction l with
  | nil => cases hc
  | cons d l ih =>
    obtain ⟨hd, hl⟩ := h
    rcases List.mem_cons.mp hc with rfl | hc
    · rw [hd]
      exact successor_ne_free l
    · exact ih hl hc

theorem Links.right (h : Links f (l₁ ++ l₂)) : Links f l₂ := by
  induction l₁ with
  | nil => exact h
  | cons c l₁ ih => exact ih h.2

theorem successor_append (l : List Nat) (c : Nat) (r : List Nat) :
    successor (l ++ c :: r) = successor (l ++ [c]) := by
  cases l <;> rfl

theorem Links.cut (h : Links f (l₁ ++ c :: l₂)) (hnd : (l₁ ++ c :: l₂).Nodup) :
    Links (Function.update (free_all f l₂) c .EndOfChain) (l₁ ++ [c]) := by
  induction l₁ with
  | nil => exact ⟨Function.update_self c _ _, trivial⟩
  | cons a l₁ ih =>
    rw [List.cons_append] at h hnd ⊢
    obtain ⟨ha, hl⟩ := h
    obtain ⟨hout, hnd⟩ := List.nodup_cons.mp hnd
    rw [List.mem_append, List.mem_cons, not_or, not_or] at hout
    refine ⟨?_, ih hl hnd⟩
    rw [Function.update_of_ne hout.2.1, free_all, if_neg hout.2.2, ha, successor_append]

theorem append_of_ne_nil (f : Nat → FatValue) (a c : Nat) (hl : l ≠ []) :
    append f (a :: l) c = append f l c := by
  obtain ⟨b, l, rfl⟩ := List.exists_cons_of_ne_nil hl
  rw [append, append, List.getLast?_cons_cons]

theorem append_other (hc : d ≠ c) (hd : d ∉ l) : append f l c d = f d := by
  unfold append put
  cases hlast : l.getLast? with
  | none => simp only [Function.update_of_ne hc]
  | some p =>
    have hp : d ≠ p := fun he => hd (he ▸ List.mem_of_getLast? hlast)
    simp only [Function.update_of_ne hp, Function.update_of_ne hc]

theorem Links.append (h : Links f l) (hnd : l.Nodup) (hc : c ∉ l) :
    Links (Fatfs.append f l c) (l ++ [c]) := by
  induction l with
  | nil => exact ⟨Function.update_self c _ _, trivial⟩
  | cons a l ih =>
    obtain ⟨ha, hl⟩ := h
    obtain ⟨hout, hnd⟩ := List.nodup_cons.mp hnd
    simp only [List.mem_cons, not_or] at hc
    by_cases hnil : l = []
    · subst hnil
      refine ⟨Function.update_self a _ _, ?_, trivial⟩
      show Function.update (Function.update f c .EndOfChain) a (.Data c) c = _
      rw [Function.update_of_ne hc.1, Function.update_self]
      rfl
    · rw [append_of_ne_nil f a c hnil]
      refine ⟨?_, ih hl hnd hc.2⟩
      rw [append_other (Ne.symm hc.1) hout, ha]
      obtain ⟨b, l, rfl⟩ := List.exists_cons_of_ne_nil hnil
      rfl

end Links

/-! ## Sound volumes -/

/-- The chains `files` are apart, and every other cluster below `stop` is free or bad. -/
structure Partition {ι : Type} (f : Nat → FatValue) (stop : Nat) (files : ι → List Nat) : Prop where
  links : ∀ i, Links f (files i)
  nodup : ∀ i, (files i).Nodup
  apart : ∀ i j, i ≠ j → ∀ c ∈ files i, c ∉ files j
  inRange : ∀ i, ∀ c ∈ files i, InRange stop c
  covered : ∀ c, InRange stop c → f c = .Free ∨ f c = .Bad ∨ ∃ i, c ∈ files i

namespace Partition

variable {ι : Type} {f f' : Nat → FatValue} {stop : Nat} {files : ι → List Nat}
  {i : ι} {c : Nat} {l r : List Nat}

theorem not_mem_of_free (h : Partition f stop files) (hc : f c = .Free) (i : ι) : c ∉ files i :=
  fun hm => (h.links i).not_free hm hc

variable [DecidableEq ι]

theorem replace (h : Partition f stop files) (hl : Links f' l) (hnd : l.Nodup)
    (hr : ∀ c ∈ l, InRange stop c) (hout : ∀ j, j ≠ i → ∀ c ∈ l, c ∉ files j)
    (hsame : ∀ c, c ∉ files i → c ∉ l → f' c = f c) (hgone : ∀ c ∈ files i, c ∉ l → f' c = .Free) :
    Partition f' stop (Function.update files i l) := by
  refine ⟨fun j => ?_, fun j => ?_, fun j k hjk c hc => ?_, fun j c hc => ?_, fun c hc => ?_⟩
  · by_cases hj : j = i
    · rw [hj, Function.update_self]
      exact hl
    · rw [Function.update_of_ne hj]
      exact (h.links j).congr fun c hc =>
        hsame c (h.apart j i hj c hc) (fun hcl => hout j hj c hcl hc)
  · by_cases hj : j = i
    · rw [hj, Function.update_self]
      exact hnd
    · rw [Function.update_of_ne hj]
      exact h.nodup j
  · by_cases hj : j = i
    · rw [hj, Function.update_self] at hc
      rw [Function.update_of_ne (fun hk => hjk (hj.trans hk.symm))]
      exact hout k (fun hk => hjk (hj.trans hk.symm)) c hc
    · rw [Function.update_of_ne hj] at hc
      by_cases hk : k = i
      · rw [hk, Function.update_self]
        exact fun hcl => hout j hj c hcl hc
      · rw [Function.update_of_ne hk]
        exact h.apart j k hjk c hc
  · by_cases hj : j = i
    · rw [hj, Function.update_self] at hc
      exact hr c hc
    · rw [Function.update_of_ne hj] at hc
      exact h.inRange j c hc
  · by_cases hcl : c ∈ l
    · exact .inr (.inr ⟨i, by rwa [Function.update_self]⟩)
    · by_cases hci : c ∈ files i
      · exact .inl (hgone c hci hcl)
      · rw [hsame c hci hcl]
        rcases h.covered c hc with hf | hb | ⟨j, hj⟩
        · exact .inl hf
        · exact .inr (.inl hb)
        · have hji : j ≠ i := by
            rintro rfl
            exact hci hj
          exact .inr (.inr ⟨j, by rwa [Function.update_of_ne hji]⟩)

theorem append (h : Partition f stop files) (hr : InRange stop c) (hc : f c = .Free) :
    Partition (Fatfs.append f (files i) c) stop (Function.update files i (files i ++ [c])) := by
  have hnot := h.not_mem_of_free hc
  refine h.replace ((h.links i).append (h.nodup i) (hnot i)) ?_ ?_ ?_ ?_ ?_
  · exact List.nodup_append.mpr ⟨h.nodup i, List.pairwise_singleton _ c, fun a ha b hb => by
      rw [List.mem_singleton.mp hb]
      rintro rfl
      exact hnot i ha⟩
  · intro d hd
    rcases List.mem_append.mp hd with hd | hd
    · exact h.inRange i d hd
    · exact List.mem_singleton.mp hd ▸ hr
  · intro j hj d hd
    rcases List.mem_append.mp hd with hd | hd
    · exact h.apart i j (Ne.symm hj) d hd
    · exact List.mem_singleton.mp hd ▸ hnot j
  · intro d hdi hdl
    rw [List.mem_append, List.mem_singleton, not_or] at hdl
    exact append_other hdl.2 hdi
  · intro d hdi hdl
    exact absurd (List.mem_append_left _ hdi) hdl

theorem cut (h : Partition f stop files) (hi : files i = l ++ c :: r) :
    Partition (Function.update (free_all f r) c .EndOfChain) stop
      (Function.update files i (l ++ [c])) := by
  have hnd := h.nodup i
  have hmem : ∀ d, d ∈ l ++ [c] → d ∈ files i := by
    intro d hd
    rw [hi]
    simp only [List.mem_append, List.mem_cons] at hd ⊢
    tauto
  rw [hi] at hnd
  have hc : c ∉ r := (List.nodup_cons.mp (List.nodup_append.mp hnd).2.1).1
  refine h.replace ((hi ▸ h.links i).cut hnd) ?_ (fun d hd => h.inRange i d (hmem d hd))
    (fun j hj d hd => h.apart i j (Ne.symm hj) d (hmem d hd)) ?_ ?_
  · have : (l ++ [c] ++ r).Nodup := by simpa using hnd
    exact (List.nodup_append.mp this).1
  · intro d hdi hdl
    rw [hi] at hdi
    simp only [List.mem_append, List.mem_cons, not_or] at hdi hdl
    rw [Function.update_of_ne hdl.2.1, free_all, if_neg hdi.2.2]
  · intro d hdi hdl
    rw [hi] at hdi
    simp only [List.mem_append, List.mem_cons, not_or] at hdi hdl
    rw [Function.update_of_ne hdl.2.1, free_all, if_pos (by tauto)]

theorem free (h : Partition f stop files) :
    Partition (free_all f (files i)) stop (Function.update files i []) := by
  refine h.replace trivial List.nodup_nil (fun d hd => absurd hd List.not_mem_nil)
    (fun j _ d hd => absurd hd List.not_mem_nil) ?_ ?_
  · intro d hdi _
    rw [free_all, if_neg hdi]
  · intro d hdi _
    rw [free_all, if_pos hdi]

end Partition

/-! ## What the table functions do to the clusters -/

/-- Where the search for a free cluster starts. -/
def start_cluster (hint : Option Nat) (stop : Nat) : Nat :=
  match hint with
  | some n => if n < stop then n else RESERVED_FAT_ENTRIES
  | none => RESERVED_FAT_ENTRIES

/-- The cluster that is allocated: the first free one from the hint on, or else the first free
one. -/
def choose (f : Nat → FatValue) (hint : Option Nat) (stop : Nat) : Option Nat :=
  (first_free f (start_cluster hint stop) (stop - start_cluster hint stop)).or
    (first_free f RESERVED_FAT_ENTRIES (start_cluster hint stop - RESERVED_FAT_ENTRIES))

section Specs

variable {t : FatType} {stop total c n k : Nat} {s : DiskSlice} {f : Nat → FatValue}
  {hint prev : Option Nat} {l : List Nat}

theorem start_cluster_bounds (h2 : RESERVED_FAT_ENTRIES < stop)
    (hhint : ∀ n ∈ hint, RESERVED_FAT_ENTRIES ≤ n) :
    RESERVED_FAT_ENTRIES ≤ start_cluster hint stop ∧ start_cluster hint stop < stop := by
  unfold start_cluster
  split
  · split
    · exact ⟨hhint _ rfl, ‹_›⟩
    · exact ⟨le_refl _, h2⟩
  · exact ⟨le_refl _, h2⟩

theorem choose_eq_some (h2 : RESERVED_FAT_ENTRIES < stop)
    (hhint : ∀ n ∈ hint, RESERVED_FAT_ENTRIES ≤ n) (h : choose f hint stop = some c) :
    f c = .Free ∧ InRange stop c := by
  obtain ⟨hlo, hhi⟩ := start_cluster_bounds h2 hhint
  rw [choose, Option.or_eq_some_iff] at h
  rcases h with h | ⟨_, h⟩
  · obtain ⟨hf, hr, _⟩ := first_free_eq_some.mp h
    exact ⟨hf, by omega, by omega⟩
  · obtain ⟨hf, hr, _⟩ := first_free_eq_some.mp h
    exact ⟨hf, by omega, by omega⟩

theorem choose_eq_none (h2 : RESERVED_FAT_ENTRIES < stop)
    (hhint : ∀ n ∈ hint, RESERVED_FAT_ENTRIES ≤ n) :
    choose f hint stop = none ↔ ∀ c, InRange stop c → f c ≠ .Free := by
  obtain ⟨hlo, hhi⟩ := start_cluster_bounds h2 hhint
  rw [choose, Option.or_eq_none_iff, first_free_eq_none, first_free_eq_none]
  constructor
  · rintro ⟨h1, h2⟩ c ⟨hc1, hc2⟩
    by_cases hc : start_cluster hint stop ≤ c
    · exact h1 c hc (by omega)
    · exact h2 c hc1 (by omega)
  · intro h
    exact ⟨fun d hd1 hd2 => h d ⟨by omega, by omega⟩, fun d hd1 hd2 => h d ⟨hd1, by omega⟩⟩

theorem clusters_search (h : Covers t stop s) (h2 : RESERVED_FAT_ENTRIES < stop)
    (hhint : ∀ n ∈ hint, RESERVED_FAT_ENTRIES ≤ n) :
    ∃ o, tryCatch (find_free_cluster t (start_cluster hint stop) stop) (fun e =>
      if start_cluster hint stop > RESERVED_FAT_ENTRIES then
        find_free_cluster t RESERVED_FAT_ENTRIES (start_cluster hint stop)
      else throw e) s =
        .ok (found (choose (clusters t stop s) hint stop), { s with offset := o }) := by
  obtain ⟨hlo, hhi⟩ := start_cluster_bounds h2 hhint
  obtain ⟨o, ho⟩ := find_free_clusters h hlo hhi (le_refl stop)
  unfold choose
  cases hfirst : first_free (clusters t stop s) (start_cluster hint stop)
    (stop - start_cluster hint stop) with
  | some c =>
    rw [hfirst] at ho
    exact ⟨o, catch_of_ok ho⟩
  | none =>
    rw [hfirst] at ho
    rw [catch_of_error ho]
    split
    · exact find_free_clusters (s := { s with offset := o }) (h.kept (kept_of_moved s o))
        (le_refl _) (by omega) (by omega)
    · have hzero : start_cluster hint stop - RESERVED_FAT_ENTRIES = 0 := by omega
      rw [hzero]
      exact ⟨o, rfl⟩

theorem alloc_cluster_spec (h : Covers t (total + RESERVED_FAT_ENTRIES) s)
    (htotal : 0 < total) (hhint : ∀ n ∈ hint, RESERVED_FAT_ENTRIES ≤ n)
    (hprev : ∀ p ∈ prev, InRange (total + RESERVED_FAT_ENTRIES) p) :
    match choose (clusters t (total + RESERVED_FAT_ENTRIES) s) hint
      (total + RESERVED_FAT_ENTRIES) with
    | some c => ∃ s', alloc_cluster t prev hint total s = .ok (.ok c, s') ∧ Kept s s' ∧
        clusters t (total + RESERVED_FAT_ENTRIES) s' =
          put (clusters t (total + RESERVED_FAT_ENTRIES) s) prev c
    | none =>
      ∃ o, alloc_cluster t prev hint total s = .ok (.error no_space, { s with offset := o }) := by
  have h2 : RESERVED_FAT_ENTRIES < total + RESERVED_FAT_ENTRIES := by omega
  obtain ⟨o, ho⟩ := clusters_search h h2 hhint
  cases hchoose : choose (clusters t (total + RESERVED_FAT_ENTRIES) s) hint
    (total + RESERVED_FAT_ENTRIES) with
  | none =>
    rw [hchoose] at ho
    exact ⟨o, bind_of_error ho⟩
  | some c =>
    rw [hchoose] at ho
    obtain ⟨hfree, hr⟩ := choose_eq_some h2 hhint hchoose
    have hcov := h.kept (kept_of_moved s o)
    obtain ⟨s₁, hw₁, hk₁, hc₁⟩ := write_clusters hcov hr (v := .EndOfChain) trivial
    rw [clusters_moved (s := s)] at hc₁
    have hk := (kept_of_moved s o).trans hk₁
    have hstart : alloc_cluster t prev hint total s = (do
        match prev with
        | some n => write_fat t n (.Data c)
        | none => pure ()
        return c : SliceM Nat) s₁ := (bind_of_ok ho).trans (bind_of_ok hw₁)
    cases prev with
    | none => exact ⟨s₁, hstart, hk, hc₁⟩
    | some p =>
      have hbelow := h.below
      have hv : Storable t (.Data c) :=
        ⟨Nat.lt_of_lt_of_le (by decide) hr.1, Nat.lt_of_lt_of_le hr.2 hbelow⟩
      obtain ⟨s₂, hw₂, hk₂, hc₂⟩ := write_clusters (hcov.kept hk₁) (hprev p rfl) hv
      refine ⟨s₂, hstart.trans (bind_of_ok hw₂), hk.trans hk₂, ?_⟩
      rw [hc₂, hc₁]
      rfl

/-! ### Following a chain -/

theorem next_spec (h : Covers t stop s) (hc : InRange stop c)
    (hlink : clusters t stop s c = successor l) :
    ∃ o, ClusterIterator.next ⟨t, some c, false⟩ s =
      .ok (.ok (l.head?.map .ok, ⟨t, l.head?, false⟩), { s with offset := o }) := by
  obtain ⟨o, hread⟩ := read_clusters h hc
  refine ⟨o, ?_⟩
  have hnext : get_next_cluster t c s = .ok (.ok l.head?, { s with offset := o }) := by
    rw [get_next_cluster, bind_of_ok hread, hlink]
    cases l <;> rfl
  exact bind_of_ok (attempt_eq hnext)

theorem free_all_cons (f : Nat → FatValue) (c : Nat) (l : List Nat) :
    free_all (Function.update f c .Free) l = free_all f (c :: l) := by
  funext d
  simp only [free_all, Function.update_apply, List.mem_cons]
  split <;> split <;> simp_all

theorem free_loop_spec (h : Covers t stop s) (hl : Links (clusters t stop s) l)
    (hnd : l.Nodup) (hr : ∀ c ∈ l, InRange stop c) {turns : Nat} (hturns : l.length < turns) :
    ∃ s', ClusterIterator.free_loop turns ⟨t, l.head?, false⟩ k s =
      .ok (.ok (k + l.length), s') ∧ Kept s s' ∧
      clusters t stop s' = free_all (clusters t stop s) l := by
  induction l generalizing s k turns with
  | nil =>
    obtain ⟨turns, rfl⟩ := Nat.exists_eq_add_of_lt hturns
    refine ⟨s, ?_, Kept.refl s, ?_⟩
    · rw [ClusterIterator.free_loop]
      rfl
    · funext d
      simp [free_all]
  | cons c l ih =>
    obtain ⟨hlink, hl⟩ := hl
    obtain ⟨hout, hnd⟩ := List.nodup_cons.mp hnd
    have hc := hr c List.mem_cons_self
    obtain ⟨o, hnext⟩ := next_spec h hc hlink
    obtain ⟨s₁, hw, hk, hclusters⟩ :=
      write_clusters (h.kept (kept_of_moved s o)) hc (v := .Free) trivial
    rw [clusters_moved (s := s)] at hclusters
    cases turns with
    | zero => exact absurd hturns (Nat.not_lt_zero _)
    | succ turns =>
      have hk₁ := (kept_of_moved s o).trans hk
      have hl₁ : Links (clusters t stop s₁) l := hl.congr fun d hd => by
        rw [hclusters, Function.update_of_ne]
        rintro rfl
        exact hout hd
      obtain ⟨s', hloop, hk', hclusters'⟩ :=
        ih (k := k + 1) (h.kept hk₁) hl₁ hnd (fun d hd => hr d (List.mem_cons_of_mem c hd))
          (Nat.lt_of_succ_lt_succ hturns)
      refine ⟨s', ?_, hk₁.trans hk', ?_⟩
      · refine ((bind_of_ok hnext).trans (bind_of_ok hw)).trans (hloop.trans ?_)
        rw [List.length_cons, Nat.add_assoc, Nat.add_comm 1]
      · rw [hclusters', hclusters, free_all_cons]

theorem length_lt_turns (h : Covers t stop s) (hnd : l.Nodup) (hr : ∀ c ∈ l, InRange stop c) :
    l.length < s.size + 2 := by
  have hsub : l.toFinset ⊆ Finset.Ico RESERVED_FAT_ENTRIES stop := by
    intro c hc
    exact Finset.mem_Ico.mpr (hr c (List.mem_toFinset.mp hc))
  have hcard := Finset.card_le_card hsub
  rw [List.toFinset_card_of_nodup hnd, Nat.card_Ico] at hcard
  have hfits := h.fits.2
  have : stop - 1 ≤ entry_offset t (stop - 1) := by
    cases t <;> simp only [entry_offset] <;> omega
  omega

theorem free_spec (h : Covers t stop s) (hl : Links (clusters t stop s) l)
    (hnd : l.Nodup) (hr : ∀ c ∈ l, InRange stop c) :
    ∃ s', ClusterIterator.free ⟨t, l.head?, false⟩ s = .ok (.ok l.length, s') ∧ Kept s s' ∧
      clusters t stop s' = free_all (clusters t stop s) l := by
  obtain ⟨s', hloop, hs'⟩ := free_loop_spec (k := 0) h hl hnd hr (length_lt_turns h hnd hr)
  rw [Nat.zero_add] at hloop
  exact ⟨s', hloop, hs'⟩

theorem truncate_spec (h : Covers t stop s) (hl : Links (clusters t stop s) (c :: l))
    (hnd : (c :: l).Nodup) (hr : ∀ d ∈ c :: l, InRange stop d) :
    ∃ s', (ClusterIterator.new t c).truncate s = .ok (.ok l.length, s') ∧ Kept s s' ∧
      clusters t stop s' = Function.update (free_all (clusters t stop s) l) c .EndOfChain := by
  obtain ⟨hlink, hl⟩ := hl
  obtain ⟨hout, hnd⟩ := List.nodup_cons.mp hnd
  have hc := hr c List.mem_cons_self
  obtain ⟨o, hnext⟩ := next_spec h hc hlink
  obtain ⟨s₁, hw, hk, hclusters⟩ :=
    write_clusters (h.kept (kept_of_moved s o)) hc (v := .EndOfChain) trivial
  rw [clusters_moved (s := s)] at hclusters
  have hk₁ := (kept_of_moved s o).trans hk
  have hl₁ : Links (clusters t stop s₁) l := hl.congr fun d hd => by
    rw [hclusters, Function.update_of_ne]
    rintro rfl
    exact hout hd
  obtain ⟨s', hfree, hk', hclusters'⟩ :=
    free_spec (h.kept hk₁) hl₁ hnd fun d hd => hr d (List.mem_cons_of_mem c hd)
  refine ⟨s', ((bind_of_ok hnext).trans (bind_of_ok hw)).trans hfree, hk₁.trans hk', ?_⟩
  rw [hclusters', hclusters]
  funext d
  by_cases hdc : d = c
  · subst hdc
    rw [free_all, if_neg hout, Function.update_self, Function.update_self]
  · simp only [free_all, Function.update_of_ne hdc]

end Specs

/-! ## Counting the free clusters -/

section Count

variable {f : Nat → FatValue} {stop c p : Nat} {v : FatValue} {l : List Nat}

theorem free_count_eq_card (f : Nat → FatValue) (stop : Nat) :
    free_count f stop =
      ((Finset.Ico RESERVED_FAT_ENTRIES stop).filter fun c => f c = .Free).card := by
  rw [free_count, List.countP_eq_length_filter,
    ← List.toFinset_card_of_nodup ((List.nodup_range' 1).filter _)]
  congr 1
  ext c
  simp only [List.mem_toFinset, List.mem_filter, List.mem_range'_1, decide_eq_true_eq,
    Finset.mem_filter, Finset.mem_Ico]
  constructor <;> rintro ⟨⟨h1, h2⟩, h3⟩ <;> exact ⟨⟨h1, by omega⟩, h3⟩

theorem free_count_take (hr : InRange stop c) (hc : f c = .Free) (hv : v ≠ .Free) :
    free_count (Function.update f c v) stop + 1 = free_count f stop := by
  rw [free_count_eq_card, free_count_eq_card]
  have hmem : c ∈ (Finset.Ico RESERVED_FAT_ENTRIES stop).filter fun c => f c = .Free :=
    Finset.mem_filter.mpr ⟨Finset.mem_Ico.mpr hr, hc⟩
  rw [← Finset.card_erase_add_one hmem]
  congr 2
  ext d
  simp only [Finset.mem_filter, Finset.mem_erase, Function.update_apply]
  split <;> simp_all

theorem free_count_used (hc : f c ≠ .Free) (hv : v ≠ .Free) :
    free_count (Function.update f c v) stop = free_count f stop := by
  rw [free_count_eq_card, free_count_eq_card]
  congr 1
  ext d
  simp only [Finset.mem_filter, Function.update_apply]
  split <;> simp_all

theorem free_count_give (hr : InRange stop c) (hc : f c ≠ .Free) :
    free_count (Function.update f c .Free) stop = free_count f stop + 1 := by
  have h := free_count_take (f := Function.update f c .Free) (v := f c) hr
    (Function.update_self c _ f) hc
  rw [Function.update_idem, Function.update_eq_self] at h
  exact h.symm

theorem free_count_free_all (hnd : l.Nodup) (hr : ∀ c ∈ l, InRange stop c)
    (hused : ∀ c ∈ l, f c ≠ .Free) :
    free_count (free_all f l) stop = free_count f stop + l.length := by
  induction l generalizing f with
  | nil =>
    have : free_all f [] = f := by
      funext d
      simp [free_all]
    rw [this]
    rfl
  | cons c l ih =>
    obtain ⟨hout, hnd⟩ := List.nodup_cons.mp hnd
    rw [← free_all_cons, ih hnd (fun d hd => hr d (List.mem_cons_of_mem c hd)) ?_,
      free_count_give (hr c List.mem_cons_self) (hused c List.mem_cons_self), List.length_cons]
    · omega
    · intro d hd
      rw [Function.update_of_ne]
      · exact hused d (List.mem_cons_of_mem c hd)
      · rintro rfl
        exact hout hd

end Count

end HectoOs.Fatfs
