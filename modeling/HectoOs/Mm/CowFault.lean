import HectoOs.Mm.CopyOnWrite

/-! # Page faults of copy-on-write pages

The handler finds the entry of a page by its number, but the area of it by the address. A page that
only begins or ends in an area has addresses that lead to no area, or to another one.
-/

open HectoOs.Lib

namespace HectoOs.Mm

open PageTableImpl

variable {cfg : Config} {s : Os} {φ φ' : Phys} {kernel as as' : AddressSpace}
  {l₁ l₂ : List (Option AddressSpace)}
  {va frame p : Nat} {e : PTEImpl} {area : MapArea}

/-- The pages of the lower half with the property `P` have the same entries, and without those of
the devices the same bytes. -/
structure SamePages (cfg : Config) (P : Nat → Prop) (m : Mem) (as : AddressSpace)
    (m' : Mem) (as' : AddressSpace) : Prop where
  entries : ∀ v, v < 2 ^ 26 → P v → lookup cfg m' as'.page_table v = lookup cfg m as.page_table v
  bytes : ∀ v e, v < 2 ^ 26 → P v → v ∉ cfg.device_pages → lookup cfg m as.page_table v = some e →
    SameFrame m m' (e.ppn cfg)

/-- The page of the entry `e` can be stored to, with the bytes that it had. -/
structure Writable (cfg : Config) (m : Mem) (e : PTEImpl) (m' : Mem) (e' : PTEImpl) : Prop where
  writable : e'.contains .WRITABLE = true
  cow : e'.contains .COW = false
  bytes : ∀ k, k < 4096 → m' (frame_va (e'.ppn cfg) + k) = m (frame_va (e.ppn cfg) + k)

theorem fault_not_cow (e : PTEImpl) : (fault_flags e).getLsbD 8 = false := by
  rw [getLsbD_fault e (by omega)]
  simp

theorem writable_of_fault {m m' : Mem} {e' : PTEImpl}
    (h2 : e'.getLsbD 2 = true) (h8 : e'.getLsbD 8 = false)
    (hb : ∀ k, k < 4096 → m' (frame_va (e'.ppn cfg) + k) = m (frame_va (e.ppn cfg) + k)) :
    Writable cfg m e m' e' := by
  refine ⟨?_, ?_, hb⟩
  · rw [PTEImpl.WRITABLE, PTEImpl.contains_flag _ (by omega), h2]
  · rw [PTEImpl.COW, PTEImpl.contains_flag _ (by omega), h8]

theorem Tracks.frame_mem {m : Mem} {v : Nat} (h : Tracks cfg m as.page_table as.pages)
    (hv : v < 2 ^ 26) (hd : v ∉ cfg.device_pages) (he : lookup cfg m as.page_table v = some e) :
    e.ppn cfg ∈ as.frames := by
  obtain ⟨x, hx, rfl⟩ := h.tracked v e hv he hd
  rw [h.ppn_eq hx he, AddressSpace.frames_eq]
  exact List.mem_map_of_mem hx

theorem same_pages_of_update {o : Option PTEImpl} (htr : Tracks cfg φ.mem as.page_table as.pages)
    (hva : floor va < 2 ^ 26) (hpt : as'.page_table = as.page_table)
    (hu : Updates cfg userHalf φ.mem as.page_table φ'.mem as.page_table (floor va) o)
    (hs : ∀ q ∈ as.frames, SameFrame φ.mem φ'.mem q) :
    SamePages cfg (· ≠ floor va) φ.mem as φ'.mem as' := by
  refine ⟨fun v hv hne => ?_, fun v e hv _ hd he => hs _ (htr.frame_mem hv hd he)⟩
  rw [hpt, updates_of_lt hu hva hv, if_neg hne]

theorem handled_pages (h : Tracked cfg ⟨φ, kernel, l₁ ++ some as :: l₂⟩)
    (hf : Faults cfg φ.mem as va e area frame)
    (hh : Handled cfg (others kernel l₁ l₂) φ as va e area frame as' φ') :
    (∃ e', lookup cfg φ'.mem as'.page_table (floor va) = some e' ∧ Writable cfg φ.mem e φ'.mem e') ∧
    SamePages cfg (· ≠ floor va) φ.mem as φ'.mem as' ∧
    ∀ q ∈ others kernel l₁ l₂, SameFrame φ.mem φ'.mem q := by
  have htr := h.tracks as (by simp)
  have hva := hf.low htr
  obtain ⟨k, hfound⟩ := hf.found
  obtain ⟨v, htracker⟩ := hf.tracker
  obtain ⟨d₁, d₂, hpages, _⟩ := AddressSpace.pages_of_find hfound htracker
  have hx : (⟨floor va, frame, area.map_perm⟩ : Page) ∈ as.pages := by simp [hpages]
  have hframe : frame ∈ as.frames := frame_mem hx
  have hppn : e.ppn cfg = frame := htr.ppn_eq hx hf.entry
  cases hh with
  | inPlace hcount hm hu =>
    have hnow : lookup cfg φ'.mem as.page_table (floor va) = some (fault_flags e) := by
      rw [updates_of_lt hu hva hva, if_pos rfl]
    refine ⟨⟨_, hnow, writable_of_fault (fault_writable e) (fault_not_cow e) fun k hk => ?_⟩,
      ?_, fun q hq => ?_⟩
    · rw [ppn_fault, hppn]
      exact hm.same frame (List.mem_append_left _ hframe) _ (by omega) (by omega)
    · exact same_pages_of_update htr hva rfl hu fun q hq => hm.same q (List.mem_append_left _ hq)
    · exact hm.same q (List.mem_append_right _ hq)
  | @copied φ' p hcount hc =>
    -- the old frame keeps a tracker, so that no frame that was in use is written
    have hone : 1 < (as.frames ++ others kernel l₁ l₂).count frame := by
      have hnot : frame ∉ as.page_table.tables :=
        fun ht => h.half.owns.notMem ht (List.mem_append_left _ hframe)
      rw [AddressSpace.trackers, List.append_assoc, List.count_append,
        List.count_eq_zero.mpr hnot] at hcount
      omega
    have hsame : ∀ q ∈ as.frames ++ others kernel l₁ l₂, SameFrame φ.mem φ'.mem q :=
      fun q hq => hc.same q (mem_erase_of_count hq hone)
    have hnow : lookup cfg φ'.mem
      (AddressSpace.set_frame as va (floor va) area p).page_table (floor va) =
        some (.new p (fault_flags e)) := by
      rw [AddressSpace.set_frame_page_table, updates_of_lt hc.update hva hva, if_pos rfl]
    have hp : p < 2 ^ 38 := by
      have := hc.owns.alloc.lt (hc.owns.alloc.range p (by simp))
      omega
    refine ⟨⟨_, hnow, writable_of_fault ?_ ?_ fun k hk => ?_⟩, ?_, fun q hq => ?_⟩
    · rw [PTEImpl.getLsbD_new _ _ (by omega), fault_writable]
    · rw [PTEImpl.getLsbD_new _ _ (by omega), fault_not_cow]
    · rw [PTEImpl.ppn_new cfg hp, hppn]
      exact hc.copy k hk
    · exact same_pages_of_update htr hva rfl hc.update fun q hq =>
        hsame q (List.mem_append_left _ hq)
    · exact hsame q (List.mem_append_right _ hq)

end HectoOs.Mm
