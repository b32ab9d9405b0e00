import HectoOs.Mm.Ownership

/-! # Pages and their trackers

`Tracks` connects a page table with the pages that the areas hold trackers for. The loops that map
pages with frames of their own extend both alike.
-/

open HectoOs.Lib

namespace HectoOs.Mm

open PageTableImpl

/-- A page of an area: its number, its frame, and the permissions of the area. -/
structure Page where
  vpn : Nat
  ppn : Nat
  perm : PTEImpl

def Page.of (perm : PTEImpl) (x : Nat × Nat) : Page := ⟨x.1, x.2, perm⟩

def MapArea.pages (area : MapArea) : List Page := area.data_frames.map (Page.of area.map_perm)

def AddressSpace.pages (as : AddressSpace) : List Page := as.areas.flatMap (·.2.pages)

/-- The pages that `new_kernel` maps for the devices. -/
def Config.device_pages (cfg : Config) : List Nat :=
  cfg.devices.flatMap fun r => vpns (floor r.start) (ceil r.stop)

theorem MapArea.frames_eq (area : MapArea) : area.frames = area.pages.map Page.ppn := by
  simp [MapArea.frames, MapArea.pages, Page.of]

theorem AddressSpace.frames_eq (as : AddressSpace) : as.frames = as.pages.map Page.ppn := by
  simp only [AddressSpace.frames, AddressSpace.pages, List.map_flatMap]
  exact congrArg (fun f => as.areas.flatMap f) (funext fun a => a.2.frames_eq)

/-! ## Pages of the user -/

section User

variable {cfg : Config} {v w : Nat}

theorem own_of_lt (h : v < 2 ^ 26) : Own userHalf v := by
  show (vpn_index v 18).val < 256
  rw [vpn_index_val]
  omega

theorem key_of_lt (h : v < 2 ^ 26) : key v = v := Nat.mod_eq_of_lt (by omega)

theorem key_inj (hv : v < 2 ^ 26) (hw : w < 2 ^ 26) : key v = key w ↔ v = w := by
  rw [key_of_lt hv, key_of_lt hw]

theorem device_lt (h : v ∈ cfg.device_pages) : v < FIRST_PPN := by
  obtain ⟨r, hr, hv⟩ := List.mem_flatMap.mp h
  exact device_page_lt hr (List.mem_map.mpr ⟨v, hv, rfl⟩)

theorem device_low (h : v ∈ cfg.device_pages) : v < 2 ^ 26 := (device_lt h).trans (by decide)

theorem nodup_device_pages (cfg : Config) : cfg.device_pages.Nodup := by
  have h := cfg.mmio_nodup
  unfold Config.device_pages Config.devices
  rw [List.flatMap_map]
  exact h

/-- The entry of a page of a device. -/
def device_entry (v : Nat) : PTEImpl := .new v (.READABLE ||| .WRITABLE ||| .VALID)

theorem device_entries_eq (cfg : Config) : cfg.devices.flatMap device_entries =
    cfg.device_pages.map fun v => (v, device_entry v) := by
  rw [Config.device_pages, List.map_flatMap]
  rfl

theorem updates_of_lt {m m' : Mem} {pt pt' : PageTableImpl} {o : Option PTEImpl}
    (h : Updates cfg userHalf m pt m' pt' v o) (hv : v < 2 ^ 26) (hw : w < 2 ^ 26) :
    lookup cfg m' pt' w = if w = v then o else lookup cfg m pt w := by
  rw [h w (own_of_lt hw)]
  exact if_congr (key_inj hw hv) rfl rfl

end User

/-! ## Tracked pages -/

/-- The pages below the upper half are those of the list and those of the devices. -/
structure Tracks (cfg : Config) (m : Mem) (pt : PageTableImpl) (pages : List Page) : Prop where
  low : ∀ x ∈ pages, x.vpn < 2 ^ 26
  mapped : ∀ x ∈ pages, ∃ e, lookup cfg m pt x.vpn = some e ∧ e.ppn cfg = x.ppn
  tracked : ∀ v e, v < 2 ^ 26 → lookup cfg m pt v = some e → v ∉ cfg.device_pages →
    ∃ x ∈ pages, x.vpn = v
  devices : ∀ v ∈ cfg.device_pages, ∃ e, lookup cfg m pt v = some e ∧ e.ppn cfg = v
  apart : ∀ x ∈ pages, x.vpn ∉ cfg.device_pages
  distinct : (pages.map Page.vpn).Nodup

namespace Tracks

variable {cfg : Config} {m m' : Mem} {pt pt' : PageTableImpl} {pages pages' : List Page} {v : Nat}

theorem perm (h : Tracks cfg m pt pages) (hp : pages'.Perm pages) : Tracks cfg m pt pages' where
  low x hx := h.low x (hp.mem_iff.mp hx)
  mapped x hx := h.mapped x (hp.mem_iff.mp hx)
  tracked v e hv he hd := by
    obtain ⟨x, hx, hxv⟩ := h.tracked v e hv he hd
    exact ⟨x, hp.mem_iff.mpr hx, hxv⟩
  devices := h.devices
  apart x hx := h.apart x (hp.mem_iff.mp hx)
  distinct := (hp.map Page.vpn).nodup_iff.mpr h.distinct

theorem congr (h : Tracks cfg m pt pages) (hs : SameMap cfg userHalf m pt m' pt') :
    Tracks cfg m' pt' pages where
  low := h.low
  mapped x hx := by
    rw [hs _ (own_of_lt (h.low x hx))]
    exact h.mapped x hx
  tracked v e hv := by
    rw [hs v (own_of_lt hv)]
    exact h.tracked v e hv
  devices v hv := by
    rw [hs v (own_of_lt (device_low hv))]
    exact h.devices v hv
  apart := h.apart
  distinct := h.distinct

theorem maps {new : List Page} (f : Page → PTEImpl) (h : Tracks cfg m pt pages)
    (hm : Maps cfg userHalf m pt m' pt' (new.map fun x => (x.vpn, .new x.ppn (f x ||| .VALID))))
    (hlow : ∀ x ∈ new, x.vpn < 2 ^ 26) (hppn : ∀ x ∈ new, x.ppn < 2 ^ 38) :
    Tracks cfg m' pt' (new ++ pages) := by
  have hkeep : ∀ v e, v < 2 ^ 26 → lookup cfg m pt v = some e → lookup cfg m' pt' v = some e :=
    fun v e hv he => (hm.found v e (own_of_lt hv)).mpr (.inl he)
  have hunmapped : ∀ x ∈ new, lookup cfg m pt x.vpn = none :=
    fun x hx => hm.unmapped (x.vpn, _) (List.mem_map.mpr ⟨x, hx, rfl⟩)
  refine ⟨fun x hx => ?_, fun x hx => ?_, fun v e hv he hd => ?_, fun v hv => ?_,
    fun x hx => ?_, ?_⟩
  · rcases List.mem_append.mp hx with hx | hx
    · exact hlow x hx
    · exact h.low x hx
  · rcases List.mem_append.mp hx with hx | hx
    · have := hm.of_mem (List.mem_map_of_mem hx) (own_of_lt (hlow x hx))
      exact ⟨_, this, PTEImpl.ppn_new cfg (hppn x hx) _⟩
    · obtain ⟨e, he, hp⟩ := h.mapped x hx
      exact ⟨e, hkeep _ e (h.low x hx) he, hp⟩
  · rcases (hm.found v e (own_of_lt hv)).mp he with he | ⟨y, hy, hyv, _⟩
    · obtain ⟨x, hx, hxv⟩ := h.tracked v e hv he hd
      exact ⟨x, List.mem_append_right _ hx, hxv⟩
    · obtain ⟨x, hx, rfl⟩ := List.mem_map.mp hy
      exact ⟨x, List.mem_append_left _ hx, (key_inj (hlow x hx) hv).mp hyv⟩
  · obtain ⟨e, he, hp⟩ := h.devices v hv
    exact ⟨e, hkeep v e (device_low hv) he, hp⟩
  · rcases List.mem_append.mp hx with hx | hx
    · intro hd
      obtain ⟨e, he, _⟩ := h.devices _ hd
      rw [hunmapped x hx] at he
      simp at he
    · exact h.apart x hx
  · rw [List.map_append]
    refine List.nodup_append.mpr ⟨?_, h.distinct, fun a ha b hb hab => ?_⟩
    · have hd := hm.distinct
      rw [List.pairwise_map] at hd
      refine List.pairwise_map.mpr (hd.imp_of_mem fun hx hy hne he => hne ?_)
      exact (key_inj (hlow _ hx) (hlow _ hy)).mpr he
    · obtain ⟨x, hx, rfl⟩ := List.mem_map.mp ha
      obtain ⟨y, hy, rfl⟩ := List.mem_map.mp hb
      obtain ⟨e, he, _⟩ := h.mapped y hy
      rw [← hab, hunmapped x hx] at he
      simp at he

theorem reflag {e e' : PTEImpl} (h : Tracks cfg m pt pages) (hv : v < 2 ^ 26)
    (he : lookup cfg m pt v = some e) (hu : Updates cfg userHalf m pt m' pt v (some e'))
    (hp : e'.ppn cfg = e.ppn cfg) :
    Tracks cfg m' pt pages := by
  have hnow : ∀ w, w < 2 ^ 26 → ∀ d, lookup cfg m pt w = some d →
      ∃ d', lookup cfg m' pt w = some d' ∧ d'.ppn cfg = d.ppn cfg := by
    intro w hw d hd
    rw [updates_of_lt hu hv hw]
    by_cases hwv : w = v
    · subst hwv
      rw [he] at hd
      obtain rfl := Option.some.inj hd
      exact ⟨e', if_pos rfl, hp⟩
    · exact ⟨d, by rw [if_neg hwv, hd], rfl⟩
  refine ⟨h.low, fun x hx => ?_, fun w d hw hd hdev => ?_, fun w hw => ?_, h.apart, h.distinct⟩
  · obtain ⟨d, hd, hx'⟩ := h.mapped x hx
    obtain ⟨d', hd', hp'⟩ := hnow _ (h.low x hx) d hd
    exact ⟨d', hd', hp'.trans hx'⟩
  · rw [updates_of_lt hu hv hw] at hd
    by_cases hwv : w = v
    · subst hwv
      exact h.tracked w e hw he hdev
    · rw [if_neg hwv] at hd
      exact h.tracked w d hw hd hdev
  · obtain ⟨d, hd, hx'⟩ := h.devices w hw
    obtain ⟨d', hd', hp'⟩ := hnow _ (device_low hw) d hd
    exact ⟨d', hd', hp'.trans hx'⟩

theorem move {e' : PTEImpl} {x : Page} {l₁ l₂ : List Page} (h : Tracks cfg m pt (l₁ ++ x :: l₂))
    (hu : Updates cfg userHalf m pt m' pt x.vpn (some e')) :
    Tracks cfg m' pt (l₁ ++ { x with ppn := e'.ppn cfg } :: l₂) := by
  have hx : x ∈ l₁ ++ x :: l₂ := by simp
  have hv := h.low x hx
  have hvpns : (l₁ ++ { x with ppn := e'.ppn cfg } :: l₂).map Page.vpn =
    (l₁ ++ x :: l₂).map Page.vpn := by simp
  have hmem : ∀ y, y ∈ l₁ ++ { x with ppn := e'.ppn cfg } :: l₂ →
      y = { x with ppn := e'.ppn cfg } ∨ (y ∈ l₁ ++ x :: l₂ ∧ y.vpn ≠ x.vpn) := by
    intro y hy
    have hd := h.distinct
    simp only [List.map_append, List.map_cons, List.nodup_append, List.nodup_cons,
      List.mem_map, List.mem_cons] at hd
    simp only [List.mem_append, List.mem_cons] at hy ⊢
    rcases hy with hy | rfl | hy
    · exact .inr ⟨.inl hy, hd.2.2 _ ⟨y, hy, rfl⟩ _ (.inl rfl)⟩
    · exact .inl rfl
    · exact .inr ⟨.inr (.inr hy), fun he => hd.2.1.1 ⟨y, hy, he⟩⟩
  refine ⟨fun y hy => ?_, fun y hy => ?_, fun w d hw hd hdev => ?_, fun w hw => ?_,
    fun y hy => ?_, ?_⟩
  · rcases hmem y hy with rfl | ⟨hy, _⟩
    · exact hv
    · exact h.low y hy
  · rcases hmem y hy with rfl | ⟨hy, hne⟩
    · exact ⟨e', by rw [updates_of_lt hu hv hv, if_pos rfl], rfl⟩
    · obtain ⟨d, hd, hp⟩ := h.mapped y hy
      exact ⟨d, by rw [updates_of_lt hu hv (h.low y hy), if_neg hne, hd], hp⟩
  · have hvpn : w ∈ (l₁ ++ x :: l₂).map Page.vpn := by
      rw [updates_of_lt hu hv hw] at hd
      by_cases hwv : w = x.vpn
      · exact List.mem_map.mpr ⟨x, hx, hwv.symm⟩
      · rw [if_neg hwv] at hd
        obtain ⟨y, hy, hyw⟩ := h.tracked w d hw hd hdev
        exact List.mem_map.mpr ⟨y, hy, hyw⟩
    rw [← hvpns] at hvpn
    exact List.mem_map.mp hvpn
  · obtain ⟨d, hd, hp⟩ := h.devices w hw
    have hne : w ≠ x.vpn := fun he => h.apart x hx (he ▸ hw)
    exact ⟨d, by rw [updates_of_lt hu hv (device_low hw), if_neg hne, hd], hp⟩
  · rcases hmem y hy with rfl | ⟨hy, _⟩
    · exact h.apart x hx
    · exact h.apart y hy
  · rw [hvpns]
    exact h.distinct

theorem unmap {gone : List Page} (h : Tracks cfg m pt (gone ++ pages)) (hl : ∀ w, w < 2 ^ 26 →
    lookup cfg m' pt w = if w ∈ gone.map Page.vpn then none else lookup cfg m pt w) :
    Tracks cfg m' pt pages := by
  have hd := h.distinct
  rw [List.map_append, List.nodup_append] at hd
  have hnot : ∀ x ∈ pages, x.vpn ∉ gone.map Page.vpn :=
    fun x hx hg => hd.2.2 _ hg _ (List.mem_map_of_mem hx) rfl
  refine ⟨fun x hx => ?_, fun x hx => ?_, fun v e hv he hdev => ?_, fun v hv => ?_,
    fun x hx => ?_, hd.2.1⟩
  · exact h.low x (List.mem_append_right _ hx)
  · rw [hl _ (h.low x (List.mem_append_right _ hx)), if_neg (hnot x hx)]
    exact h.mapped x (List.mem_append_right _ hx)
  · rw [hl v hv] at he
    split at he
    · simp at he
    · rename_i hv'
      obtain ⟨x, hx, rfl⟩ := h.tracked v e hv he hdev
      rcases List.mem_append.mp hx with hx | hx
      · exact absurd (List.mem_map_of_mem hx) hv'
      · exact ⟨x, hx, rfl⟩
  · have hg : v ∉ gone.map Page.vpn := by
      intro hg
      obtain ⟨x, hx, rfl⟩ := List.mem_map.mp hg
      exact h.apart x (List.mem_append_left _ hx) hv
    rw [hl v (device_low hv), if_neg hg]
    exact h.devices v hv
  · exact h.apart x (List.mem_append_right _ hx)

theorem ppn_eq (h : Tracks cfg m pt pages) {x : Page} {e : PTEImpl} (hx : x ∈ pages)
    (he : lookup cfg m pt x.vpn = some e) : e.ppn cfg = x.ppn := by
  obtain ⟨e', he', hp⟩ := h.mapped x hx
  rw [he] at he'
  obtain rfl := Option.some.inj he'
  exact hp

theorem unique (h : Tracks cfg m pt pages) {x y : Page} (hx : x ∈ pages) (hy : y ∈ pages)
    (hxy : x.vpn = y.vpn) : x = y := List.inj_on_of_nodup_map h.distinct hx hy hxy

end Tracks

end HectoOs.Mm
