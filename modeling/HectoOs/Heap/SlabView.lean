import HectoOs.Heap.SlabZone

/-! # The heap as zones, lists and runs of pages

A `View` says which zones there are and which lists they are in. `View.Ok` relates it to the runs of
pages and to the live blocks, and `Rep` to the memory and the statics.
-/

open HectoOs.Lib HectoOs.Heap

namespace HectoOs.Slab

/-! ## `PAGE_USAGE_ARRAY` -/

section Table

variable {c : Statics} {m m' : Mem} {kup n : Nat}

theorem usage_same (h : SameOn m m' kup (kup + 16)) : usage m' kup = usage m kup := by
  unfold usage
  rw [load64_same (h.mono (by omega) (by omega)), load32_same (h.mono (by omega) (by omega))]

def PageUsage.Small : PageUsage → Prop
  | .Free => True
  | .Zone n => n < 2 ^ 32
  | .Page n => n < 2 ^ 32

theorem usage_set_usage {u : PageUsage} (hu : u.Small) :
    usage (set_usage m kup u) kup = some u := by
  cases u with
  | Free => simp only [usage, set_usage, load64_store64_same _ _ _ (by decide : 0 < 2 ^ 64)]
  | Zone n =>
    have h1 : load64 (set_usage m kup (.Zone n)) kup = 1 :=
      (load64_store32_ne _ _ _ _ (by omega)).trans (load64_store64_same _ _ _ (by decide))
    have h2 : load32 (set_usage m kup (.Zone n)) (kup + 8) = n := load32_store32_same _ _ _ hu
    simp only [usage, h1, h2]
  | Page n =>
    have h1 : load64 (set_usage m kup (.Page n)) kup = 2 :=
      (load64_store32_ne _ _ _ _ (by omega)).trans (load64_store64_same _ _ _ (by decide))
    have h2 : load32 (set_usage m kup (.Page n)) (kup + 8) = n := load32_store32_same _ _ _ hu
    simp only [usage, h1, h2]

theorem set_usage_sameOff (u : PageUsage) : SameOff m (set_usage m kup u) kup (kup + 16) := by
  cases u with
  | Free => exact (store64_sameOff _ _ _).mono (by omega) (by omega)
  | Zone n =>
    exact ((store64_sameOff _ _ _).mono (by omega) (by omega)).trans
      ((store32_sameOff _ (kup + 8) _).mono (by omega) (by omega))
  | Page n =>
    exact ((store64_sameOff _ _ _).mono (by omega) (by omega)).trans
      ((store32_sameOff _ (kup + 8) _).mono (by omega) (by omega))

theorem set_usages_succ (mark : Nat → PageUsage) :
    set_usages m kup mark (n + 1) = set_usage (set_usages m kup mark n)
    (kup + n * 16) (mark n) := by
  simp [set_usages, List.range_succ]

theorem set_usages_sameOff (mark : Nat → PageUsage) :
    SameOff m (set_usages m kup mark n) kup (kup + n * 16) := by
  induction n with
  | zero => exact SameOff.refl _ _ _
  | succ n ih =>
    rw [set_usages_succ]
    exact (ih.mono (by omega) (by omega)).trans ((set_usage_sameOff _).mono (by omega) (by omega))

theorem usage_set_usages {mark : Nat → PageUsage} (hm : ∀ i < n, (mark i).Small) :
    ∀ i < n, usage (set_usages m kup mark n) (kup + i * 16) = some (mark i) := by
  induction n with
  | zero => simp
  | succ n ih =>
    intro i hi
    rw [set_usages_succ]
    rcases Nat.lt_succ_iff_lt_or_eq.mp hi with hlt | rfl
    · rw [usage_same ((set_usage_sameOff _).sameOn (by omega))]
      exact ih (fun j hj => hm j (by omega)) i hlt
    · exact usage_set_usage (hm i hi)

end Table

/-! ## Runs of pages -/

structure RunsOk (c : Statics) (runs : List PageRun) : Prop where
  fresh : ∀ r ∈ runs, Fresh c [c.usage_run] r
  nonnull : ∀ r ∈ runs, 0 < r.start
  apart : ∀ r ∈ runs, ∀ q ∈ runs, r = q ∨ q.stop ≤ r.start ∨ r.stop ≤ q.start

section Runs

variable {c : Statics} {runs : List PageRun} {r q : PageRun}

theorem Fresh.weaken {l l' : List PageRun} (h : Fresh c l r) (hl : ∀ q ∈ l', q ∈ l) :
    Fresh c l' r :=
  ⟨h.aligned, h.nonempty, h.above, h.below, fun q hq => h.apart q (hl q hq)⟩

theorem Fresh.alone {l : List PageRun} (h : Fresh c l r) : Fresh c [] r := h.weaken (by simp)

theorem RunsOk.cons (h : RunsOk c runs) (hr : Fresh c (c.usage_run :: runs) r) (h0 : r.start ≠ 0) :
    RunsOk c (r :: runs) where
  fresh x hx := by
    rcases List.mem_cons.mp hx with rfl | hx
    · exact hr.weaken (by simp)
    · exact h.fresh x hx
  nonnull x hx := by
    rcases List.mem_cons.mp hx with rfl | hx
    · omega
    · exact h.nonnull x hx
  apart x hx y hy := by
    rcases List.mem_cons.mp hx with hx | hx <;> rcases List.mem_cons.mp hy with hy | hy
    · exact .inl (hx.trans hy.symm)
    · exact .inr (hx ▸ hr.apart y (List.mem_cons_of_mem _ hy))
    · exact .inr (hy ▸ (hr.apart x (List.mem_cons_of_mem _ hx)).symm)
    · exact h.apart x hx y hy

theorem RunsOk.filter (h : RunsOk c runs) (p : PageRun → Bool) : RunsOk c (runs.filter p) where
  fresh r hr := h.fresh r (List.mem_filter.mp hr).1
  nonnull r hr := h.nonnull r (List.mem_filter.mp hr).1
  apart r hr q hq := h.apart r (List.mem_filter.mp hr).1 q (List.mem_filter.mp hq).1

theorem RunsOk.eq_of_mem (h : RunsOk c runs) (hr : r ∈ runs) (hq : q ∈ runs) {a : Nat}
    (har : r.start ≤ a ∧ a < r.stop) (haq : q.start ≤ a ∧ a < q.stop) : r = q := by
  rcases h.apart r hr q hq with heq | hap
  · exact heq
  · omega

theorem btokup_bounds (hc : c.Ok) {a : Nat} (h1 : c.HEAP_START ≤ a) (h2 : a < c.HEAP_END) :
    c.usage_run.start ≤ btokup c a ∧ btokup c a + 16 ≤ c.usage_run.stop := by
  have hent := hc.entries
  have hal := hc.aligned
  have hal' := hc.end_aligned
  simp only [btokup, Statics.usage_run, PageRun.stop, PAGE, USAGE_SIZE] at hent hal hal' ⊢
  omega

theorem btokup_page {z k : Nat} (hle : c.HEAP_START ≤ z) :
    btokup c (z + k * PAGE) = btokup c z + k * 16 := by
  have h : (z + k * PAGE - c.HEAP_START) / PAGE = (z - c.HEAP_START) / PAGE + k := by
    simp only [PAGE]
    omega
  simp only [btokup, USAGE_SIZE, h, Nat.add_mul]
  omega

theorem run_entries (hc : c.Ok) (hr : Fresh c [] r) :
    c.usage_run.start ≤ btokup c r.start ∧ btokup c r.start + r.npages * 16 ≤ c.usage_run.stop := by
  have habove := hr.above
  have hbelow := hr.below
  have hpos := hr.nonempty
  simp only [PageRun.stop, PAGE] at hbelow
  have hfirst := btokup_bounds hc (a := r.start) habove (by omega)
  have hlast :=
    btokup_bounds hc (a := r.start + (r.npages - 1) * PAGE) (by omega) (by simp only [PAGE]; omega)
  rw [btokup_page habove] at hlast
  omega

end Runs

/-! ## Views -/

/-- `zones` by address, the members of each `ZONE_ARRAY[i]`, and those of `ZONE_FREE`. -/
structure View where
  zones : Nat → Option Zone
  lists : Nat → List Nat
  cache : List Nat

/-- `ZONE_ARRAY[zi]` has the members `l`. -/
def relist (lists : Nat → List Nat) (zi : Nat) (l : List Nat) (i : Nat) :
    List Nat := if i = zi then l else lists i

structure View.Ok (c : Statics) (runs : List PageRun) (live : List Block) (v : View) : Prop where
  zone_run : ∀ z Z, v.zones z = some Z → ⟨z, c.ZONE_PAGE_CNT⟩ ∈ runs
  zone_ok : ∀ z Z, v.zones z = some Z → Z.Ok c z
  held : ∀ z Z, v.zones z = some Z → Z.held = live.filter (in_zone c z)
  block : ∀ b ∈ live, (∃ z Z, v.zones z = some Z ∧ in_zone c z b) ∨
    ∃ n, ⟨b.ptr, n⟩ ∈ runs ∧ v.zones b.ptr = none ∧ b.size ≤ n * PAGE
  run : ∀ r ∈ runs, (∃ Z, v.zones r.start = some Z) ∨ ∃ b ∈ live, b.ptr = r.start
  nodup : (live.map Block.ptr).Nodup
  listed : ∀ i z, z ∈ v.lists i ↔ ∃ Z, v.zones z = some Z ∧ Z.zi = i ∧ 0 < Z.nfree c ∧ z ∉ v.cache
  cached : ∀ z ∈ v.cache, ∃ Z, v.zones z = some Z ∧ Z.held = []
  few : v.cache.length ≤ ZONE_FREE_CNT_LIMIT

structure Rep (c : Statics) (s : SlabState) (runs : List PageRun) (v : View) : Prop where
  stored : ∀ z Z, v.zones z = some Z → Stored c s.mem z Z (Z.nfree c)
  magic : ∀ z Z, v.zones z = some Z → z ∉ v.cache → z_magic s.mem z = ZALLOC_SLAB_MAGIC
  marks : ∀ z Z, v.zones z = some Z → ∀ k < c.ZONE_PAGE_CNT,
    usage s.mem (btokup c (z + k * PAGE)) = some (.Zone k)
  pages : ∀ r ∈ runs, v.zones r.start = none →
    usage s.mem (btokup c r.start) = some (.Page r.npages)
  lists : ∀ i, ForwardList.IsList s.mem (s.ZONE_ARRAY i) (v.lists i)
  cached : ForwardList.IsList s.mem s.ZONE_FREE v.cache
  count : s.ZONE_FREE_CNT = v.cache.length

section Zones

variable {c : Statics} {runs : List PageRun} {live : List Block} {v : View}
  {z z' : Nat} {Z Z' : Zone}
variable (hc : c.Ok) (hr : RunsOk c runs) (hv : v.Ok c runs live)

theorem in_zone_iff {b : Block} : in_zone c z b = true ↔ z ≤ b.ptr ∧ b.ptr < z + c.ZONE_SIZE := by
  simp [in_zone]

include hc in
theorem zone_stop : (⟨z, c.ZONE_PAGE_CNT⟩ : PageRun).stop = z + c.ZONE_SIZE := by
  rw [PageRun.stop, hc.page_cnt]

include hc hr hv

theorem View.Ok.zone_bounds (hz : v.zones z = some Z) : 0 < z ∧ z % PAGE = 0 ∧ c.HEAP_START ≤ z ∧
    z + c.ZONE_SIZE ≤ c.HEAP_END ∧
    (c.usage_run.stop ≤ z ∨ z + c.ZONE_SIZE ≤ c.usage_run.start) := by
  have hmem := hv.zone_run z Z hz
  have hf := hr.fresh _ hmem
  have hbelow := hf.below
  have hap := hf.apart c.usage_run List.mem_cons_self
  rw [zone_stop hc] at hbelow hap
  exact ⟨hr.nonnull _ hmem, hf.aligned, hf.above, hbelow, hap⟩

theorem View.Ok.zone_apart (hz : v.zones z = some Z) (hz' : v.zones z' = some Z') (hne : z ≠ z') :
    z + c.ZONE_SIZE ≤ z' ∨ z' + c.ZONE_SIZE ≤ z := by
  have hap := hr.apart _ (hv.zone_run z Z hz) _ (hv.zone_run z' Z' hz')
  rw [zone_stop hc, zone_stop hc] at hap
  rcases hap with heq | hap
  · exact absurd (congrArg PageRun.start heq) hne
  · exact hap.symm

end Zones

theorem View.Ok.block_chunk {c : Statics} {runs : List PageRun} {live : List Block}
    {v : View} {z : Nat} {Z : Zone} {b : Block} (hv : v.Ok c runs live)
    (hz : v.zones z = some Z) (hb : b ∈ live) (hin : in_zone c z b = true) :
    b ∈ Z.held ∧ Z.Chunk z b.ptr ∧ b.size ≤ Z.size := by
  have hheld : b ∈ Z.held := by
    rw [hv.held z Z hz]
    exact List.mem_filter.mpr ⟨hb, hin⟩
  exact ⟨hheld, (hv.zone_ok z Z hz).held_chunk b hheld⟩

/-! ## One zone changes -/

section Put

variable {c : Statics} {runs runs' : List PageRun} {live live' : List Block}
  {v : View} {z : Nat} {Z' : Zone}
variable {lists' : Nat → List Nat} {cache' : List Nat}

/-- The zone at `z` becomes `Z'`. -/
def View.put (v : View) (z : Nat) (Z' : Zone) (lists' : Nat → List Nat)
    (cache' : List Nat) : View :=
  ⟨fun x => if x = z then some Z' else v.zones x, lists', cache'⟩

theorem View.put_self : (v.put z Z' lists' cache').zones z = some Z' := if_pos rfl

theorem View.put_ne {x : Nat} (h : x ≠ z) :
    (v.put z Z' lists' cache').zones x = v.zones x := if_neg h

theorem filter_of_filter {α : Type} {l l' : List α} {p q : α → Bool}
    (hpq : ∀ a, p a = true → q a = true) (h : l'.filter q = l.filter q) :
    l'.filter p = l.filter p := by
  have hboth : ∀ k : List α, k.filter p = (k.filter q).filter p := by
    intro k
    rw [List.filter_filter]
    refine List.filter_congr fun a _ => ?_
    cases hp : p a with
    | false => rfl
    | true => simp [hpq a hp]
  rw [hboth l', hboth l, h]

section Kept

-- The zone `z` becomes `Z'`: outside of it the blocks stay, and the runs are those of before and
-- its own.
variable (hc : c.Ok) (hr' : RunsOk c runs') (hv : v.Ok c runs live) (hsub : ∀ r ∈ runs, r ∈ runs')
  (hz : ⟨z, c.ZONE_PAGE_CNT⟩ ∈ runs')
  (hoff : live'.filter (fun b => !in_zone c z b) = live.filter fun b => !in_zone c z b)

include hc hr' hv hsub hz

theorem View.Ok.put_apart {x : Nat} {X : Zone} (hx : v.zones x = some X) (hne : x ≠ z) {b : Block}
    (hb : in_zone c x b = true) : in_zone c z b = false := by
  by_contra hbz
  rw [Bool.not_eq_false] at hbz
  rw [in_zone_iff] at hb hbz
  have := hr'.eq_of_mem (hsub _ (hv.zone_run x X hx)) hz (a := b.ptr)
    (by rw [zone_stop hc]; exact hb) (by rw [zone_stop hc]; exact hbz)
  exact hne (congrArg PageRun.start this)

omit hv in
theorem View.Ok.put_start {r : PageRun} (hr : r ∈ runs) (he : r.start ≠ z)
    {b : Block} (hbr : b.ptr = r.start) :
    in_zone c z b = false := by
  by_contra hbz
  rw [Bool.not_eq_false] at hbz
  have hlt := PageRun.start_lt_stop (hr'.fresh r (hsub r hr)).nonempty
  rw [in_zone_iff] at hbz
  have := hr'.eq_of_mem (hsub r hr) hz (a := b.ptr) (by omega) (by rw [zone_stop hc]; exact hbz)
  exact he (congrArg PageRun.start this)

include hoff

omit hc hr' hv hsub hz in
theorem View.Ok.put_live {b : Block} (hb : in_zone c z b = false) : b ∈ live' ↔ b ∈ live := by
  have := congrArg (b ∈ ·) hoff
  simpa [hb] using this

theorem View.Ok.put_held (hheld : Z'.held = live'.filter (in_zone c z)) {x : Nat} {X : Zone}
    (hx : (v.put z Z' lists' cache').zones x = some X) : X.held = live'.filter (in_zone c x) := by
  by_cases he : x = z
  · subst he
    rw [View.put_self] at hx
    obtain rfl := Option.some.inj hx
    exact hheld
  · rw [View.put_ne he] at hx
    rw [hv.held x X hx]
    exact (filter_of_filter (fun b hb => by simp [hv.put_apart hc hr' hsub hz hx he hb]) hoff).symm

omit hr' hz in
theorem View.Ok.put_block {b : Block} (hb : b ∈ live') :
    (∃ x X, (v.put z Z' lists' cache').zones x = some X ∧ in_zone c x b) ∨
      ∃ n, ⟨b.ptr, n⟩ ∈ runs' ∧ (v.put z Z' lists' cache').zones b.ptr = none ∧
      b.size ≤ n * PAGE := by
  have hsize := hc.size
  cases hin : in_zone c z b with
  | true => exact .inl ⟨z, Z', View.put_self, hin⟩
  | false =>
    rcases hv.block b ((View.Ok.put_live hoff hin).mp hb) with ⟨x, X, hx, hbx⟩ | ⟨n, hn, hnone, hle⟩
    · have hne : x ≠ z := by
        rintro rfl
        simp [hin] at hbx
      exact .inl ⟨x, X, by rw [View.put_ne hne]; exact hx, hbx⟩
    · have hne : b.ptr ≠ z := by
        intro heq
        have : in_zone c z b = true := in_zone_iff.mpr (by omega)
        simp [this] at hin
      exact .inr ⟨n, hsub _ hn, by rw [View.put_ne hne]; exact hnone, hle⟩

theorem View.Ok.put_run {r : PageRun} (hr : r ∈ runs ∨ r.start = z) :
    (∃ X, (v.put z Z' lists' cache').zones r.start = some X) ∨ ∃ b ∈ live', b.ptr = r.start := by
  by_cases he : r.start = z
  · exact .inl ⟨Z', by rw [he]; exact View.put_self⟩
  · have hr := hr.resolve_right he
    rw [View.put_ne he]
    rcases hv.run r hr with hzone | ⟨b, hb, hbr⟩
    · exact .inl hzone
    · exact .inr ⟨b,
        (View.Ok.put_live hoff (View.Ok.put_start hc hr' hsub hz hr he hbr)).mpr hb, hbr⟩

end Kept

theorem View.Ok.put (hc : c.Ok) (hr' : RunsOk c runs') (hv : v.Ok c runs live)
    (hsub : ∀ r ∈ runs, r ∈ runs') (hnew : ∀ r ∈ runs', r ∈ runs ∨ r.start = z)
    (hz : ⟨z, c.ZONE_PAGE_CNT⟩ ∈ runs') (hok : Z'.Ok c z)
    (hoff : live'.filter (fun b => !in_zone c z b) = live.filter fun b => !in_zone c z b)
    (hheld : Z'.held = live'.filter (in_zone c z)) (hnd : (live'.map Block.ptr).Nodup)
    (hlists : ∀ i x, x ∈ lists' i ↔ if x = z then i = Z'.zi ∧ 0 < Z'.nfree c else x ∈ v.lists i)
    (hcache : ∀ x, x ∈ cache' ↔ x ∈ v.cache ∧ x ≠ z) (hlen : cache'.length ≤ ZONE_FREE_CNT_LIMIT) :
    (v.put z Z' lists' cache').Ok c runs' live' := by
  constructor
  case zone_run =>
    intro x X hx
    by_cases he : x = z
    · rw [he]
      exact hz
    · rw [View.put_ne he] at hx
      exact hsub _ (hv.zone_run x X hx)
  case zone_ok =>
    intro x X hx
    by_cases he : x = z
    · subst he
      rw [View.put_self] at hx
      obtain rfl := Option.some.inj hx
      exact hok
    · rw [View.put_ne he] at hx
      exact hv.zone_ok x X hx
  case held => exact fun x X hx => hv.put_held hc hr' hsub hz hoff hheld hx
  case block => exact fun b hb => hv.put_block hc hsub hoff hb
  case run => exact fun r hr => hv.put_run hc hr' hsub hz hoff (hnew r hr)
  case nodup => exact hnd
  case listed =>
    intro i x
    refine (hlists i x).trans ?_
    by_cases he : x = z
    · subst he
      simp [View.put, hcache]
      tauto
    · rw [if_neg he, hv.listed i x]
      simp [View.put, hcache, he]
  case cached =>
    intro x hx
    obtain ⟨hx, hne⟩ := (hcache x).mp hx
    rw [View.put_ne hne]
    exact hv.cached x hx
  case few => exact hlen

variable {s s' : SlabState}

theorem usage_run_same (hc : c.Ok) (hr : RunsOk c runs) {m m' : Mem}
    (htab : SameOn m m' c.usage_run.start c.usage_run.stop)
    {r : PageRun} (hmem : r ∈ runs) {k : Nat} (hk : k < r.npages) :
    usage m' (btokup c (r.start + k * PAGE)) = usage m (btokup c (r.start + k * PAGE)) := by
  have hf := hr.fresh r hmem
  have habove := hf.above
  have hbelow := hf.below
  have hb := btokup_bounds hc (a := r.start + k * PAGE) (by omega)
    (by simp only [PageRun.stop, PAGE] at hbelow ⊢; omega)
  exact usage_same (htab.mono (by omega) (by omega))

theorem Rep.put (hc : c.Ok) (hr' : RunsOk c runs') (hv : v.Ok c runs live)
    (h : Rep c s runs v) (hsub : ∀ r ∈ runs, r ∈ runs') (hnew : ∀ r ∈ runs', r ∈ runs ∨ r.start = z)
    (hz : ⟨z, c.ZONE_PAGE_CNT⟩ ∈ runs') (hoff : SameOff s.mem s'.mem z (z + c.ZONE_SIZE))
    (hstored : Stored c s'.mem z Z' (Z'.nfree c)) (hmagic : z_magic s'.mem z = ZALLOC_SLAB_MAGIC)
    (hmarks : ∀ k < c.ZONE_PAGE_CNT, usage s.mem (btokup c (z + k * PAGE)) = some (.Zone k))
    (hcache : ∀ x, x ∈ cache' ↔ x ∈ v.cache ∧ x ≠ z)
    (hlists : ∀ i, ForwardList.IsList s'.mem (s'.ZONE_ARRAY i) (lists' i))
    (hcached : ForwardList.IsList s'.mem s'.ZONE_FREE cache')
    (hcount : s'.ZONE_FREE_CNT = cache'.length) :
    Rep c s' runs' (v.put z Z' lists' cache') := by
  have hsize := hc.size
  have hap := (hr'.fresh _ hz).apart c.usage_run List.mem_cons_self
  rw [zone_stop hc] at hap
  have htab : SameOn s.mem s'.mem c.usage_run.start c.usage_run.stop := hoff.sameOn (by omega)
  -- The memory of the other zones stays as it is.
  have hother : ∀ x X, v.zones x = some X → x ≠ z → SameOn s.mem s'.mem x (x + c.ZONE_SIZE) := by
    intro x X hx hne
    have hap := hr'.apart _ (hsub _ (hv.zone_run x X hx)) _ hz
    simp only [zone_stop hc] at hap
    rcases hap with heq | hap
    · exact absurd (congrArg PageRun.start heq) hne
    · exact hoff.sameOn (by omega)
  constructor
  case stored =>
    intro x X hx
    by_cases he : x = z
    · subst he
      rw [View.put_self] at hx
      obtain rfl := Option.some.inj hx
      exact hstored
    · rw [View.put_ne he] at hx
      exact (h.stored x X hx).same_zone hc (hv.zone_ok x X hx)
        ((hother x X hx he).mono (by omega) (by omega))
  case magic =>
    intro x X hx hnc
    by_cases he : x = z
    · rw [he]
      exact hmagic
    · rw [View.put_ne he] at hx
      have hsame := hother x X hx he
      have hnc' : x ∉ v.cache := fun hmem => hnc ((hcache x).mpr ⟨hmem, he⟩)
      exact (load32_same (hsame.mono (by omega) (by omega))).trans (h.magic x X hx hnc')
  case marks =>
    intro x X hx k hk
    by_cases he : x = z
    · subst he
      exact (usage_run_same hc hr' htab hz hk).trans (hmarks k hk)
    · rw [View.put_ne he] at hx
      exact (usage_run_same hc hr' htab (hsub _ (hv.zone_run x X hx)) hk).trans
        (h.marks x X hx k hk)
  case pages =>
    intro r hr hnone
    have he : r.start ≠ z := by
      intro he
      rw [he, View.put_self] at hnone
      simp at hnone
    rw [View.put_ne he] at hnone
    have hold := (hnew r hr).resolve_right he
    have := usage_run_same hc hr' htab hr (hr'.fresh r hr).nonempty
    rw [Nat.zero_mul, Nat.add_zero] at this
    exact this.trans (h.pages r hold hnone)
  case lists => exact hlists
  case cached => exact hcached
  case count => exact hcount

theorem Rep.same (hc : c.Ok) (hv : v.Ok c runs live) (h : Rep c s runs v)
    (hmem : ∀ r ∈ runs, SameOn s.mem s'.mem r.start r.stop)
    (hent : ∀ r ∈ runs, ∀ k < r.npages,
      usage s'.mem (btokup c (r.start + k * PAGE)) = usage s.mem (btokup c (r.start + k * PAGE)))
    (hr : RunsOk c runs) (harr : s'.ZONE_ARRAY = s.ZONE_ARRAY) (hfree : s'.ZONE_FREE = s.ZONE_FREE)
    (hcnt : s'.ZONE_FREE_CNT = s.ZONE_FREE_CNT) : Rep c s' runs v := by
  have hsize := hc.size
  have hzone : ∀ x X, v.zones x = some X → SameOn s.mem s'.mem x (x + c.ZONE_SIZE) := by
    intro x X hx
    have := hmem _ (hv.zone_run x X hx)
    rw [zone_stop hc] at this
    exact this
  constructor
  case stored =>
    intro x X hx
    exact (h.stored x X hx).same_zone hc (hv.zone_ok x X hx)
      ((hzone x X hx).mono (by omega) (by omega))
  case magic =>
    intro x X hx hnc
    exact (load32_same ((hzone x X hx).mono (by omega) (by omega))).trans (h.magic x X hx hnc)
  case marks =>
    intro x X hx k hk
    exact (hent _ (hv.zone_run x X hx) k hk).trans (h.marks x X hx k hk)
  case pages =>
    intro r hmem hnone
    have := hent r hmem 0 (hr.fresh r hmem).nonempty
    rw [Nat.zero_mul, Nat.add_zero] at this
    exact this.trans (h.pages r hmem hnone)
  case lists =>
    intro i
    rw [harr]
    refine ForwardList.isList_same (h.lists i) fun a ha => ?_
    obtain ⟨Z, hZ, -⟩ := (hv.listed i a).mp ha
    exact (hzone a Z hZ).mono (by omega) (by omega)
  case cached =>
    rw [hfree]
    refine ForwardList.isList_same h.cached fun a ha => ?_
    obtain ⟨Z, hZ, -⟩ := hv.cached a ha
    exact (hzone a Z hZ).mono (by omega) (by omega)
  case count => rw [hcnt, h.count]

end Put

/-! ## Runs of pages come and go -/

section PageRuns

variable {c : Statics} {runs : List PageRun} {live : List Block} {v : View}
  {r : PageRun} {s : SlabState}

theorem RunsOk.eq_of_start (h : RunsOk c runs) {q : PageRun} (hr : r ∈ runs)
    (hq : q ∈ runs) (he : r.start = q.start) :
    r = q := by
  have h1 := PageRun.start_lt_stop (h.fresh r hr).nonempty
  have h2 := PageRun.start_lt_stop (h.fresh q hq).nonempty
  exact h.eq_of_mem hr hq (a := r.start) (by omega) (by omega)

theorem View.Ok.block_in_run (hc : c.Ok) (hr : RunsOk c runs) (hv : v.Ok c runs live)
    {b : Block} (hb : b ∈ live) :
    ∃ r ∈ runs, r.start ≤ b.ptr ∧ b.ptr < r.stop := by
  rcases hv.block b hb with ⟨z, Z, hz, hin⟩ | ⟨n, hn, -⟩
  · refine ⟨_, hv.zone_run z Z hz, ?_⟩
    rw [zone_stop hc]
    exact in_zone_iff.mp hin
  · exact ⟨_, hn, Nat.le_refl _, PageRun.start_lt_stop (hr.fresh _ hn).nonempty⟩

theorem View.Ok.block_off_fresh (hc : c.Ok) (hr : RunsOk c runs) (hv : v.Ok c runs live)
    (hf : Fresh c (c.usage_run :: runs) r) {b : Block} (hb : b ∈ live) :
    b.ptr < r.start ∨ r.stop ≤ b.ptr := by
  obtain ⟨q, hq, hbq⟩ := hv.block_in_run hc hr hb
  have := hf.apart q (List.mem_cons_of_mem _ hq)
  omega

theorem View.Ok.zone_off_fresh (hc : c.Ok) (hv : v.Ok c runs live)
    (hf : Fresh c (c.usage_run :: runs) r) {z : Nat} {Z : Zone} (hz : v.zones z = some Z) :
    z + c.ZONE_SIZE ≤ r.start ∨ r.stop ≤ z := by
  have := hf.apart _ (List.mem_cons_of_mem _ (hv.zone_run z Z hz))
  rw [zone_stop hc] at this
  exact this

theorem View.Ok.add_page (hc : c.Ok) (hr : RunsOk c runs) (hv : v.Ok c runs live)
    (hf : Fresh c (c.usage_run :: runs) r) {n : Nat} (hn : n ≤ r.npages * PAGE) :
    v.Ok c (r :: runs) (⟨r.start, n⟩ :: live) := by
  have hlt := PageRun.start_lt_stop hf.nonempty
  have hsize := hc.size
  have hoff : ∀ z Z, v.zones z = some Z → in_zone c z ⟨r.start, n⟩ = false := by
    intro z Z hz
    have := hv.zone_off_fresh hc hf hz
    rw [← Bool.not_eq_true, in_zone_iff]
    simp only
    omega
  constructor
  case zone_run => exact fun z Z hz => List.mem_cons_of_mem _ (hv.zone_run z Z hz)
  case zone_ok => exact hv.zone_ok
  case held =>
    intro z Z hz
    rw [hv.held z Z hz, List.filter_cons_of_neg (by simp [hoff z Z hz])]
  case block =>
    intro b hb
    rcases List.mem_cons.mp hb with rfl | hb
    · refine .inr ⟨r.npages, List.mem_cons_self, ?_, hn⟩
      rw [Option.eq_none_iff_forall_ne_some]
      intro Z hz
      have := hv.zone_off_fresh hc hf hz
      simp only at this
      omega
    · rcases hv.block b hb with hz | ⟨k, hk, hrest⟩
      · exact .inl hz
      · exact .inr ⟨k, List.mem_cons_of_mem _ hk, hrest⟩
  case run =>
    intro q hq
    rcases List.mem_cons.mp hq with rfl | hq
    · exact .inr ⟨_, List.mem_cons_self, rfl⟩
    · rcases hv.run q hq with hz | ⟨b, hb, hbq⟩
      · exact .inl hz
      · exact .inr ⟨b, List.mem_cons_of_mem _ hb, hbq⟩
  case nodup =>
    refine List.nodup_cons.mpr ⟨fun hmem => ?_, hv.nodup⟩
    obtain ⟨b, hb, hbp⟩ := List.mem_map.mp hmem
    have := hv.block_off_fresh hc hr hf hb
    simp only at hbp
    omega
  case listed => exact hv.listed
  case cached => exact hv.cached
  case few => exact hv.few

theorem mem_without {p n : Nat} : r ∈ without runs p n ↔ r ∈ runs ∧ r ≠ ⟨p, n⟩ := by
  obtain ⟨a, k⟩ := r
  simp only [without, List.mem_filter, ne_eq, PageRun.mk.injEq, Bool.not_eq_true',
    Bool.and_eq_false_imp, beq_iff_eq,
    beq_eq_false_iff_ne, not_and]

theorem View.Ok.remove_page (hc : c.Ok) (hr : RunsOk c runs) (hv : v.Ok c runs live) {p n : Nat}
    (hrun : ⟨p, n⟩ ∈ runs) (hnone : v.zones p = none) :
    v.Ok c (without runs p n) (live.filter fun b => b.ptr != p) := by
  have hlt := PageRun.start_lt_stop (hr.fresh _ hrun).nonempty
  have hne : ∀ z Z, v.zones z = some Z → z ≠ p := by
    rintro z Z hz rfl
    rw [hnone] at hz
    simp at hz
  constructor
  case zone_run =>
    intro z Z hz
    refine mem_without.mpr ⟨hv.zone_run z Z hz, fun he => hne z Z hz ?_⟩
    exact congrArg PageRun.start he
  case zone_ok => exact hv.zone_ok
  case held =>
    intro z Z hz
    rw [hv.held z Z hz, List.filter_filter]
    refine List.filter_congr fun b _ => ?_
    cases hin : in_zone c z b with
    | false => rfl
    | true =>
      have : b.ptr ≠ p := by
        intro he
        have hmem := in_zone_iff.mp hin
        have := hr.eq_of_mem (hv.zone_run z Z hz) hrun (a := p)
          (by rw [zone_stop hc]; simp only; omega)
          (by simp only at hlt ⊢; omega)
        exact hne z Z hz (congrArg PageRun.start this)
      simp [this]
  case block =>
    intro b hb
    obtain ⟨hb, hbp⟩ := List.mem_filter.mp hb
    rcases hv.block b hb with hz | ⟨k, hk, hrest⟩
    · exact .inl hz
    · refine .inr ⟨k, mem_without.mpr ⟨hk, fun he => ?_⟩, hrest⟩
      have : b.ptr = p := congrArg PageRun.start he
      simp [this] at hbp
  case run =>
    intro q hq
    obtain ⟨hq, hqne⟩ := mem_without.mp hq
    rcases hv.run q hq with hz | ⟨b, hb, hbq⟩
    · exact .inl hz
    · refine .inr ⟨b, List.mem_filter.mpr ⟨hb, ?_⟩, hbq⟩
      have : b.ptr ≠ p := fun he => hqne (hr.eq_of_start hq hrun (hbq.symm.trans he))
      simpa using this
  case nodup => exact hv.nodup.sublist (List.filter_sublist.map _)
  case listed => exact hv.listed
  case cached => exact hv.cached
  case few => exact hv.few

end PageRuns

/-! ## A zone without blocks leaves its list -/

section Release

variable {c : Statics} {runs : List PageRun} {live : List Block} {v : View} {z : Nat} {Z : Zone}
variable (hc : c.Ok) (hr : RunsOk c runs) (hv : v.Ok c runs live) (hz : v.zones z = some Z)
  (hheld : Z.held = [])

/-- The lists without the zone. -/
def View.unlist (v : View) (z : Nat) (Z : Zone) : Nat → List Nat :=
  relist v.lists Z.zi ((v.lists Z.zi).erase z)

include hv hz in
theorem View.Ok.mem_unlist (hnd : (v.lists Z.zi).Nodup) (i x : Nat) :
    x ∈ v.unlist z Z i ↔ x ∈ v.lists i ∧ x ≠ z := by
  unfold View.unlist relist
  split
  · rename_i hi
    rw [hnd.mem_erase_iff, hi, and_comm]
  · rename_i hi
    refine ⟨fun hx => ⟨hx, ?_⟩, fun hx => hx.1⟩
    rintro rfl
    obtain ⟨X, hX, hXi, -⟩ := (hv.listed i x).mp hx
    obtain rfl := Option.some.inj (hz.symm.trans hX)
    exact hi hXi.symm

include hv hz hheld

theorem View.Ok.no_block : ∀ b ∈ live, in_zone c z b = false := by
  intro b hb
  have := hv.held z Z hz
  rw [hheld] at this
  simpa using List.filter_eq_nil_iff.mp this.symm b hb

theorem View.Ok.cache_zone (hnd : (v.lists Z.zi).Nodup)
    (hlen : v.cache.length < ZONE_FREE_CNT_LIMIT) :
    View.Ok c runs live ⟨v.zones, v.unlist z Z, z :: v.cache⟩ := by
  constructor
  case zone_run => exact hv.zone_run
  case zone_ok => exact hv.zone_ok
  case held => exact hv.held
  case block => exact hv.block
  case run => exact hv.run
  case nodup => exact hv.nodup
  case listed =>
    intro i x
    refine (hv.mem_unlist hz hnd i x).trans ?_
    rw [hv.listed i x, List.mem_cons, not_or]
    constructor
    · rintro ⟨⟨X, h1, h2, h3, h4⟩, h5⟩
      exact ⟨X, h1, h2, h3, h5, h4⟩
    · rintro ⟨X, h1, h2, h3, h5, h4⟩
      exact ⟨⟨X, h1, h2, h3, h4⟩, h5⟩
  case cached =>
    intro x hx
    rcases List.mem_cons.mp hx with rfl | hx
    · exact ⟨Z, hz, hheld⟩
    · exact hv.cached x hx
  case few => exact hlen

include hr in
theorem View.Ok.drop_zone (hnd : (v.lists Z.zi).Nodup) (hnc : z ∉ v.cache) :
    View.Ok c (without runs z c.ZONE_PAGE_CNT) live
      ⟨fun x => if x = z then none else v.zones x, v.unlist z Z, v.cache⟩ := by
  have hzones : ∀ x X, (if x = z then none else v.zones x) = some X ↔ x ≠ z ∧
    v.zones x = some X := by
    intro x X
    split <;> simp_all
  constructor
  case zone_run =>
    intro x X hx
    obtain ⟨hne, hx⟩ := (hzones x X).mp hx
    exact mem_without.mpr ⟨hv.zone_run x X hx, fun he => hne (congrArg PageRun.start he)⟩
  case zone_ok => exact fun x X hx => hv.zone_ok x X ((hzones x X).mp hx).2
  case held => exact fun x X hx => hv.held x X ((hzones x X).mp hx).2
  case block =>
    intro b hb
    rcases hv.block b hb with ⟨x, X, hx, hin⟩ | ⟨n, hn, hnone, hle⟩
    · have hne : x ≠ z := by
        rintro rfl
        rw [hv.no_block hz hheld b hb] at hin
        simp at hin
      exact .inl ⟨x, X, (hzones x X).mpr ⟨hne, hx⟩, hin⟩
    · have hne : b.ptr ≠ z := by
        intro he
        rw [he, hz] at hnone
        simp at hnone
      refine .inr ⟨n, mem_without.mpr ⟨hn, fun he => hne (congrArg PageRun.start he)⟩, ?_, hle⟩
      simp only [if_neg hne, hnone]
  case run =>
    intro r hrun
    obtain ⟨hrun, hne⟩ := mem_without.mp hrun
    rcases hv.run r hrun with ⟨X, hX⟩ | hb
    · refine .inl ⟨X, (hzones _ X).mpr ⟨fun he => hne ?_, hX⟩⟩
      exact hr.eq_of_start hrun (hv.zone_run z Z hz) he
    · exact .inr hb
  case nodup => exact hv.nodup
  case listed =>
    intro i x
    refine (hv.mem_unlist hz hnd i x).trans ?_
    rw [hv.listed i x]
    constructor
    · rintro ⟨⟨X, h1, h2⟩, h3⟩
      exact ⟨X, (hzones x X).mpr ⟨h3, h1⟩, h2⟩
    · rintro ⟨X, h1, h2⟩
      exact ⟨⟨X, ((hzones x X).mp h1).2, h2⟩, ((hzones x X).mp h1).1⟩
  case cached =>
    intro x hx
    obtain ⟨X, hX, hX'⟩ := hv.cached x hx
    refine ⟨X, (hzones x X).mpr ⟨?_, hX⟩, hX'⟩
    rintro rfl
    exact hnc hx
  case few => exact hv.few

end Release

end HectoOs.Slab
