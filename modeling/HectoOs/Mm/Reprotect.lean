import HectoOs.Mm.CowFault

/-! # New rights for pages of an area

`mmap` at an address changes the entries of pages and leaves `map_perm` of their areas. `fork` takes
the flags of the child, and new ones of the parent, from `map_perm` again.
-/

open HectoOs.Lib

namespace HectoOs.Mm

open PageTableImpl

/-- What flags permit the user; a page that is copy-on-write can be stored to after its page
fault. -/
def permits (flags : PTEImpl) : AddressSpace.Prot where
  read := flags.contains .USER && flags.contains .READABLE
  write := flags.contains .USER && (flags.contains .WRITABLE || flags.contains .COW)
  exec := flags.contains .USER && flags.contains .EXECUTABLE

/-- The pages of an address space, with the permissions of their areas. -/
def AddressSpace.perms (as : AddressSpace) : List (Nat × PTEImpl) :=
  as.pages.map fun x => (x.vpn, x.perm)

variable (cfg : Config) in
/-- What the process at `i` may do with a page. -/
def permission (s : Os) (i v : Nat) : Option AddressSpace.Prot :=
  (s.spaces[i]?).join.bind fun as => (lookup cfg s.phys.mem as.page_table v).map permits

/-- The places of the descendants of the processes of `family`; the next child comes to the place
`n`. -/
def descendants (n : Nat) (family : List Nat) : List Event → List Nat
  | [] => family
  | .fork i :: es => descendants (n + 1) (if i ∈ family then family ++ [n] else family) es
  | _ :: es => descendants n family es

/-- The steps that follow on the new rights. -/
def Event.later : Event → Bool
  | .fork _ | .handle_pagefault _ _ => true
  | _ => false

variable {cfg : Config} {s s' : Os} {φ φ' : Phys} {kernel as as' c : AddressSpace}
  {l₁ l₂ : List (Option AddressSpace)}
  {i j va frame : Nat} {e : PTEImpl} {area : MapArea} {prot : AddressSpace.Prot} {u : Unit}

/-! ## Flags -/

theorem permits_eq (f : PTEImpl) :
    permits f = ⟨f.getLsbD 4 && f.getLsbD 1, f.getLsbD 4 && (f.getLsbD 2 || f.getLsbD 8),
    f.getLsbD 4 && f.getLsbD 3⟩ := by
  simp only [permits, PTEImpl.USER, PTEImpl.READABLE, PTEImpl.WRITABLE,
    PTEImpl.EXECUTABLE, PTEImpl.COW,
    PTEImpl.contains_flag _ (show 1 < 64 by omega), PTEImpl.contains_flag _ (show 2 < 64 by omega),
    PTEImpl.contains_flag _ (show 3 < 64 by omega), PTEImpl.contains_flag _ (show 4 < 64 by omega),
    PTEImpl.contains_flag _ (show 8 < 64 by omega)]

theorem permits_new (p : Nat) (f : PTEImpl) : permits (.new p f) = permits f := by
  simp only [permits_eq, PTEImpl.getLsbD_new _ _ (show 1 < 9 by omega),
    PTEImpl.getLsbD_new _ _ (show 2 < 9 by omega),
    PTEImpl.getLsbD_new _ _ (show 3 < 9 by omega), PTEImpl.getLsbD_new _ _ (show 4 < 9 by omega),
    PTEImpl.getLsbD_new _ _ (show 8 < 9 by omega)]

theorem permits_prot (p : Nat) : permits (.new p (prot.map_perm ||| .VALID)) = prot := by
  rw [permits_new]
  cases prot with
  | mk read write exec => cases read <;> cases write <;> cases exec <;> decide

theorem fork_entry_keeps (x : Page) {b : Nat} (hb : b < 9) (h0 : b ≠ 0) (h2 : b ≠ 2) (h8 : b ≠ 8) :
    (fork_entry x).getLsbD b = x.perm.getLsbD b := by
  rw [fork_entry, PTEImpl.getLsbD_new _ _ hb, BitVec.getLsbD_or, PTEImpl.VALID,
    PTEImpl.getLsbD_flag (by omega),
    AddressSpace.fork_flags]
  split
  · rw [PTEImpl.COW, PTEImpl.WRITABLE, PTEImpl.getLsbD_insert _ (by omega),
      PTEImpl.getLsbD_remove _ (by omega) (by omega)]
    simp [h0, h2, h8]
  · simp [h0]

theorem permits_fork_entry (x : Page) : permits (fork_entry x) = permits x.perm := by
  have hcow : AddressSpace.is_cow x.perm = (x.perm.getLsbD 2 || x.perm.getLsbD 8) := by
    rw [AddressSpace.is_cow, PTEImpl.WRITABLE, PTEImpl.COW, PTEImpl.contains_flag _ (by omega),
      PTEImpl.contains_flag _ (by omega)]
  rw [permits_eq, permits_eq, fork_entry_read_only, fork_entry_cow, Bool.false_or, hcow,
    fork_entry_keeps x (by omega) (by omega) (by omega) (by omega),
    fork_entry_keeps x (by omega) (by omega) (by omega) (by omega),
    fork_entry_keeps x (by omega) (by omega) (by omega) (by omega)]

theorem permits_fault (hcow : e.contains .COW = true) : permits (fault_flags e) = permits e := by
  rw [PTEImpl.COW, PTEImpl.contains_flag _ (by omega)] at hcow
  have hkeep : ∀ b, b < 64 → b ≠ 2 → b ≠ 8 → (fault_flags e).getLsbD b = e.getLsbD b := by
    intro b hb h2 h8
    rw [getLsbD_fault e hb]
    simp [h2, h8]
  rw [permits_eq, permits_eq, fault_writable, hcow, Bool.true_or, Bool.or_true,
    hkeep 1 (by omega) (by omega) (by omega),
    hkeep 3 (by omega) (by omega) (by omega), hkeep 4 (by omega) (by omega) (by omega)]

/-! ## Steps -/

theorem permission_eq (has : s.spaces[i]? = some (some as)) (v : Nat) :
    permission cfg s i v = (lookup cfg s.phys.mem as.page_table v).map permits := by
  rw [permission, has]
  rfl

theorem perms_low (h : Consistent cfg s) (has : some as ∈ s.spaces) {x : Nat × PTEImpl}
    (hx : x ∈ as.perms) : x.1 < 2 ^ 26 := by
  obtain ⟨y, hy, rfl⟩ := List.mem_map.mp hx
  exact (h.tracked.tracks as has).low y hy

/-- What a `fork` does to the rights. -/
structure ForkRights (cfg : Config) (s s' : Os) (i : Nat) (as c : AddressSpace) : Prop where
  parent : s.spaces[i]? = some (some as)
  spaces : s'.spaces = s.spaces ++ [some c]
  perms : c.perms = as.perms
  child : ∀ x ∈ as.perms, permission cfg s' s.spaces.length x.1 = some (permits x.2)
  either : ∀ x ∈ as.perms, permission cfg s' i x.1 = permission cfg s i x.1 ∨
    permission cfg s' i x.1 = some (permits x.2)
  others : ∀ j as', j ≠ i → s.spaces[j]? = some (some as') → ∀ x ∈ as'.perms,
    permission cfg s' j x.1 = permission cfg s j x.1

theorem ForkRights.length (h : ForkRights cfg s s' i as c) :
    s'.spaces.length = s.spaces.length + 1 := by
  rw [h.spaces, List.length_append, List.length_singleton]

theorem fork_rights (h : Consistent cfg s) (hs : Os.step cfg s (.fork i) = .ok (s', u)) :
    ∃ as c, ForkRights cfg s s' i as c := by
  obtain ⟨as, c, φ', _, _, has, hok, _, rfl⟩ := new_from_cases hs
  obtain ⟨φ, kernel, l⟩ := s
  obtain ⟨l₁, l₂, hl, rfl, _⟩ := split_at has
  dsimp only at hl has hok ⊢
  subst hl
  have hmem : some as ∈ l₁ ++ some as :: l₂ := by simp
  obtain ⟨_, hf, _⟩ := wp_ok (fork_evolves h.tracked (h.keys as hmem).sorted) hok
  have hpages := forked_pages hf
  have hold : ∀ j a, (l₁ ++ some as :: l₂)[j]? = some (some a) →
      ((l₁ ++ some as :: l₂) ++ [some c])[j]? = some (some a) := fun j a ha => by
    rw [List.getElem?_append_left (List.getElem?_eq_some_iff.mp ha).1, ha]
  refine ⟨as, c, has, rfl, by rw [AddressSpace.perms, hpages, AddressSpace.perms],
    fun x hx => ?_, fun x hx => ?_,
    fun j as' hj has' x hx => ?_⟩
  · obtain ⟨y, hy, rfl⟩ := List.mem_map.mp hx
    have hc : ((l₁ ++ some as :: l₂) ++ [some c])[(l₁ ++ some as :: l₂).length]? =
      some (some c) := by simp
    rw [permission_eq hc, hf.state.child_entry y hy, Option.map_some, permits_fork_entry]
  · obtain ⟨y, hy, rfl⟩ := List.mem_map.mp hx
    rw [permission_eq (hold _ _ has), permission_eq has]
    rcases hf.state.parent_entry y.vpn (hf.state.tracks.low y hy) with ⟨z, hz, hzy, he⟩ | ⟨_, he⟩
    · obtain rfl := hf.state.tracks.unique (List.mem_filter.mp hz).1 hy hzy
      exact .inr (by rw [he, Option.map_some, permits_fork_entry])
    · exact .inl (by rw [he])
  · have hother := mem_of_ne hj has'
    have hsame : ∀ q ∈ others kernel l₁ l₂, SameFrame φ.mem φ'.mem q :=
      fun q hq => hf.state.same q (List.mem_append_right _ hq)
    have hlow : x.1 < 2 ^ 26 := perms_low h (List.mem_of_getElem? has') hx
    rw [permission_eq (hold _ _ has'), permission_eq has',
      h.tracked.half.other_lookup hsame hother _ (own_of_lt hlow)]

section Fault

variable (hf : Faults cfg φ.mem as va e area frame)
  (hh : Handled cfg (others kernel l₁ l₂) φ as va e area frame as' φ')
include hf hh

theorem handled_perms : as'.perms = as.perms := by
  obtain ⟨k, hfound⟩ := hf.found
  obtain ⟨v, htracker⟩ := hf.tracker
  obtain ⟨d₁, d₂, hpages, hset⟩ := AddressSpace.pages_of_find hfound htracker
  cases hh with
  | inPlace => rfl
  | @copied φ' p =>
    rw [AddressSpace.perms, (hset p).1, AddressSpace.perms, hpages]
    simp

theorem handled_permits (htr : Tracks cfg φ.mem as.page_table as.pages) :
    (lookup cfg φ'.mem as'.page_table (floor va)).map permits = some (permits e) := by
  have hva := hf.low htr
  cases hh with
  | inPlace _ _ hu =>
    rw [updates_of_lt hu hva hva, if_pos rfl, Option.map_some, permits_fault hf.cow]
  | copied _ hc =>
    rw [AddressSpace.set_frame_page_table, updates_of_lt hc.update hva hva,
      if_pos rfl, Option.map_some, permits_new,
      permits_fault hf.cow]

end Fault

/-- A page fault that is handled keeps all rights, and its page can be stored to. -/
structure FaultRights (cfg : Config) (s s' : Os) (i va : Nat) (as as' : AddressSpace) : Prop where
  space : s.spaces[i]? = some (some as)
  spaces : s'.spaces = s.spaces.set i (some as')
  perms : as'.perms = as.perms
  writable : (lookup cfg s'.phys.mem as'.page_table (floor va)).any (·.contains .WRITABLE) = true
  own : ∀ x ∈ as.perms, permission cfg s' i x.1 = permission cfg s i x.1
  others : ∀ j a, j ≠ i → s.spaces[j]? = some (some a) →
    ∀ x ∈ a.perms, permission cfg s' j x.1 = permission cfg s j x.1

theorem FaultRights.length (h : FaultRights cfg s s' i va as as') :
    s'.spaces.length = s.spaces.length := by
  rw [h.spaces, List.length_set]

theorem fault_rights (h : Consistent cfg s)
    (hs : Os.step cfg s (.handle_pagefault i va) = .ok (s', u)) :
    ∃ as as', FaultRights cfg s s' i va as as' := by
  obtain ⟨as, as', φ', has, hok, rfl⟩ := on_space_set hs
  obtain ⟨φ, kernel, l⟩ := s
  obtain ⟨l₁, l₂, hl, rfl, hset⟩ := split_at has
  dsimp only at hl has hok hset ⊢
  rw [hset]
  subst hl
  have hmem : some as ∈ l₁ ++ some as :: l₂ := by simp
  have hspec : wp anyPanic (as.handle_pagefault cfg va) _ φ :=
    handle_pagefault_spec (fun _ => trivial) h.tracked.half.owns (h.tracked.tracks as hmem)
      fun _ => trivial
  obtain ⟨e, area, frame, hf, hh⟩ := wp_ok hspec hok
  obtain ⟨⟨e', hnow, hw⟩, hrest, hsame⟩ := handled_pages h.tracked hf hh
  refine ⟨as, as', has, (hset _).symm, handled_perms hf hh, ?_, fun x hx => ?_,
    fun j a hj ha x hx => ?_⟩
  · rw [hnow, Option.any_some, hw.writable]
  · have has' : (l₁ ++ some as' :: l₂)[l₁.length]? = some (some as') := by simp
    rw [permission_eq has', permission_eq has]
    by_cases hv : x.1 = floor va
    · rw [hv, handled_permits hf hh (h.tracked.tracks as hmem), hf.entry, Option.map_some]
    · rw [hrest.entries _ (perms_low h hmem hx) hv]
  · have hnew : (l₁ ++ some as' :: l₂)[j]? = some (some a) := by
      rw [← hset, List.getElem?_set_ne (Ne.symm hj), ha]
    have hlow := perms_low h (List.mem_of_getElem? ha) hx
    rw [permission_eq hnew, permission_eq ha,
      h.tracked.half.other_lookup hsame (mem_of_ne hj ha) _ (own_of_lt hlow)]

section Mmap

variable {rest : List Nat} {addr length : Nat}

theorem modify_loop_sets {l : List Nat} (h : Ready cfg rest φ as) (hlow : ∀ v ∈ l, v < 2 ^ 26) :
    wp anyPanic (l.foldlM (fun _ v => as.page_table.modify_flags cfg v prot.map_perm) ())
    (fun _ φ' =>
      ∀ v ∈ l, (lookup cfg φ'.mem as.page_table v).map permits = some prot) φ := by
  refine wp_mono (wp_foldlM (fun done _ φ' => Moves cfg userHalf
    (as.frames ++ rest) φ as.page_table φ' as.page_table ∧
    ∀ v ∈ done, (lookup cfg φ'.mem as.page_table v).map permits = some prot) ?_ ?_)
      fun _ _ h' => h'.2
  · exact ⟨Moves.refl h.owns, by simp⟩
  · rintro done v later _ φ₁ rfl ⟨hm, hset⟩
    have hv : v < 2 ^ 26 := hlow v (by simp)
    refine wp_mono (hm.owns.modify_flags (own_of_lt hv) (.inl trivial)) ?_
    rintro _ φ₂ ⟨e, he, hm', hu⟩
    refine ⟨hm.trans hm', fun w hw => ?_⟩
    rw [updates_of_lt hu hv (hlow w (by simp at hw ⊢; tauto))]
    by_cases hwv : w = v
    · rw [if_pos hwv, Option.map_some, permits_prot]
    · rw [if_neg hwv]
      refine hset w ?_
      simpa [hwv] using hw

theorem mmap_rights (h : Consistent cfg s) (has : s.spaces[i]? = some (some as)) (haddr : addr ≠ 0)
    (hmapped : ∀ v ∈ mmap_pages addr length, ∃ x ∈ as.pages, x.vpn = v)
    (hs : Os.step cfg s (.mmap i addr length prot) = .ok (s', u)) :
    Consistent cfg s' ∧ s'.spaces = s.spaces ∧
    ∀ v ∈ mmap_pages addr length, permission cfg s' i v = some prot := by
  have hmem : some as ∈ s.spaces := List.mem_of_getElem? has
  have hlow : ∀ v ∈ mmap_pages addr length, v < 2 ^ 26 := by
    intro v hv
    obtain ⟨x, hx, rfl⟩ := hmapped v hv
    exact (h.tracked.tracks as hmem).low x hx
  have hfits : Event.fits s (.mmap i addr length prot) = true := by
    rw [Event.fits, if_neg haddr, List.all_eq_true]
    exact fun v hv => decide_eq_true (hlow v hv)
  refine ⟨(step_steps h hfits hs).consistent, ?_⟩
  obtain ⟨as₀, as', φ', has₀, hok, rfl⟩ := on_space_set hs
  obtain rfl := Option.some.inj (Option.some.inj (has.symm.trans has₀))
  obtain ⟨φ, kernel, l⟩ := s
  obtain ⟨l₁, l₂, hl, rfl, hset⟩ := split_at has
  dsimp only at hl has hok hset ⊢
  rw [hset]
  subst hl
  have hready := h.tracked.ready (h.keys as hmem)
  have hspec : wp anyPanic (do return (← as.sys_mmap cfg addr length prot).1)
    (fun as' φ' => as' = as ∧
      ∀ v ∈ mmap_pages addr length, (lookup cfg φ'.mem as.page_table v).map permits =
        some prot) φ := by
    rw [AddressSpace.sys_mmap, if_pos haddr]
    simp only [wp_bind]
    rw [AddressSpace.mmap_fixed, wp_bind, wp_unwrap]
    refine ⟨fun stop hstop => ?_, fun _ => trivial⟩
    obtain rfl := checked_add_eq hstop
    rw [wp_bind, wp_unwrap]
    refine ⟨fun l hl => ?_, fun _ => trivial⟩
    obtain rfl := vpn_range_eq hl
    exact wp_mono (modify_loop_sets hready hlow) fun _ φ' h' => ⟨rfl, h'⟩
  obtain ⟨rfl, hsets⟩ := wp_ok hspec hok
  exact ⟨rfl, fun v hv => by rw [permission_eq has, hsets v hv]⟩

end Mmap

/-! ## Runs -/

section Run

variable {Q : Nat × PTEImpl → Option AddressSpace.Prot → Prop} {perms : List (Nat × PTEImpl)}
  {k n : Nat} {family : List Nat}
  {es : List Event} {os : List Unit} {ev : Event}

/-- The pages of a process have the permissions `perms` in their areas, and rights as `Q` says. -/
structure Member (cfg : Config) (Q : Nat × PTEImpl → Option AddressSpace.Prot → Prop)
    (perms : List (Nat × PTEImpl)) (s : Os) (k : Nat) : Prop where
  space : ∃ as, s.spaces[k]? = some (some as) ∧ as.perms = perms
  rights : ∀ x ∈ perms, Q x (permission cfg s k x.1)

/-- A run of forks and page faults, by what they do to the rights. -/
inductive RightsRun (cfg : Config) : Os → List Event → Os → Prop where
  | nil {s : Os} : RightsRun cfg s [] s
  | fork {s t s' : Os} {i : Nat} {as c : AddressSpace} {es : List Event}
      (step : ForkRights cfg s t i as c)
    (rest : RightsRun cfg t es s') : RightsRun cfg s (.fork i :: es) s'
  | fault {s t s' : Os} {i va : Nat} {as as' : AddressSpace} {es : List Event}
      (step : FaultRights cfg s t i va as as')
    (rest : RightsRun cfg t es s') : RightsRun cfg s (.handle_pagefault i va :: es) s'

theorem Consistent.later (h : Consistent cfg s) (hev : ev.later = true)
    (hs : Os.step cfg s ev = .ok (s', u)) :
    Consistent cfg s' := by
  refine (step_steps h ?_ hs).consistent
  cases ev <;> first | rfl | cases hev

theorem Member.fork (hm : Member cfg Q perms s k) (hr : ForkRights cfg s s' i as c)
    (hQ : k = i → ∀ x ∈ perms, Q x (some (permits x.2))) : Member cfg Q perms s' k := by
  obtain ⟨⟨a, ha, hperms⟩, hrights⟩ := hm
  refine ⟨⟨a, ?_, hperms⟩, fun x hx => ?_⟩
  · rw [hr.spaces, List.getElem?_append_left (List.getElem?_eq_some_iff.mp ha).1, ha]
  · by_cases hk : k = i
    · subst hk
      obtain rfl := Option.some.inj (Option.some.inj (hr.parent.symm.trans ha))
      rcases hr.either x (hperms ▸ hx) with heq | heq
      · exact heq ▸ hrights x hx
      · exact heq ▸ hQ rfl x hx
    · rw [hr.others k a hk ha x (hperms ▸ hx)]
      exact hrights x hx

theorem Member.fault (hm : Member cfg Q perms s k) (hr : FaultRights cfg s s' i va as as') :
    Member cfg Q perms s' k := by
  obtain ⟨⟨a, ha, hperms⟩, hrights⟩ := hm
  by_cases hk : k = i
  · subst hk
    obtain rfl := Option.some.inj (Option.some.inj (hr.space.symm.trans ha))
    refine ⟨⟨as', ?_, hr.perms.trans hperms⟩, fun x hx => ?_⟩
    · rw [hr.spaces, List.getElem?_set_self (List.getElem?_eq_some_iff.mp ha).1]
    · rw [hr.own x (hperms ▸ hx)]
      exact hrights x hx
  · refine ⟨⟨a, ?_, hperms⟩, fun x hx => ?_⟩
    · rw [hr.spaces, List.getElem?_set_ne (Ne.symm hk), ha]
    · rw [hr.others k a hk ha x (hperms ▸ hx)]
      exact hrights x hx

theorem Member.child (hm : Member cfg Q perms s i) (hr : ForkRights cfg s s' i as c) :
    Member cfg (fun x r => r = some (permits x.2)) perms s' s.spaces.length := by
  obtain ⟨⟨a, ha, hperms⟩, -⟩ := hm
  obtain rfl := Option.some.inj (Option.some.inj (hr.parent.symm.trans ha))
  refine ⟨⟨c, ?_, hr.perms.trans hperms⟩, fun x hx => hr.child x (hperms ▸ hx)⟩
  rw [hr.spaces]
  simp

theorem Member.mono {Q' : Nat × PTEImpl → Option AddressSpace.Prot → Prop}
    (hm : Member cfg Q perms s k) (hQ : ∀ x ∈ perms, ∀ r, Q x r → Q' x r) :
    Member cfg Q' perms s k :=
  ⟨hm.space, fun x hx => hQ x hx _ (hm.rights x hx)⟩

theorem descendants_fault :
    descendants n family (.handle_pagefault i va :: es) = descendants n family es := by
  rw [descendants]
  simp

theorem mem_descendants (h : k ∈ family) : k ∈ descendants n family es := by
  induction es generalizing n family with
  | nil => exact h
  | cons ev es ih =>
    cases ev with
    | fork i =>
      refine ih ?_
      split
      · exact List.mem_append_left _ h
      · exact h
    | _ => exact ih h

theorem Consistent.rights_run (h : Consistent cfg s) (hlater : ∀ ev ∈ es, ev.later = true)
    (hrun : run (Os.step cfg) s es = .ok (s', os)) : RightsRun cfg s es s' := by
  induction es generalizing s os with
  | nil =>
    cases hrun
    exact .nil
  | cons ev es ih =>
    obtain ⟨t, _, _, hstep, htail, _⟩ := run_cons hrun
    have hev := hlater ev List.mem_cons_self
    have hrest :=
      ih (h.later hev hstep) (fun ev hev => hlater ev (List.mem_cons_of_mem _ hev)) htail
    cases ev with
    | fork i =>
      obtain ⟨as, c, hr⟩ := fork_rights h hstep
      exact .fork hr hrest
    | handle_pagefault i va =>
      obtain ⟨as, as', hr⟩ := fault_rights h hstep
      exact .fault hr hrest
    | _ => cases hev

theorem Member.run (hrun : RightsRun cfg s es s') (hm : Member cfg Q perms s k)
    (hQ : .fork k ∈ es → ∀ x ∈ perms, Q x (some (permits x.2))) : Member cfg Q perms s' k := by
  induction hrun with
  | nil => exact hm
  | fork hr _ ih =>
    exact ih (hm.fork hr fun hk => hQ (hk ▸ List.mem_cons_self)) fun hk =>
      hQ (List.mem_cons_of_mem _ hk)
  | fault hr _ ih => exact ih (hm.fault hr) fun hk => hQ (List.mem_cons_of_mem _ hk)

theorem forked_run (hrun : RightsRun cfg s es s') (hfork : .fork k ∈ es)
    (hk : k ∈ family) (hm : Member cfg Q perms s k) :
    ∃ j ∈ descendants s.spaces.length family es,
    Member cfg (fun x r => r = some (permits x.2)) perms s' j := by
  induction hrun generalizing family with
  | nil => simp at hfork
  | @fork s t s' i as c es hr hrest ih =>
    rw [descendants, ← hr.length]
    by_cases hki : k = i
    · subst hki
      rw [if_pos hk]
      exact ⟨s.spaces.length, mem_descendants (by simp), (hm.child hr).run hrest fun _ _ _ => rfl⟩
    · have hfork : .fork k ∈ es := by simpa [hki] using hfork
      refine ih hfork ?_ (hm.fork hr fun heq => absurd heq hki)
      split
      · exact List.mem_append_left _ hk
      · exact hk
  | fault hr _ ih =>
    rw [descendants_fault, ← hr.length]
    exact ih (by simpa using hfork) hk (hm.fault hr)

theorem descendants_run (hrun : RightsRun cfg s es s')
    (hQ : ∀ x ∈ perms, Q x (some (permits x.2))) (hm : ∀ k ∈ family, Member cfg Q perms s k) :
    ∀ k ∈ descendants s.spaces.length family es, Member cfg Q perms s' k := by
  induction hrun generalizing family with
  | nil => exact hm
  | fork hr _ ih =>
    have hold := fun k hk => (hm k hk).fork hr fun _ => hQ
    rw [descendants, ← hr.length]
    refine ih ?_
    split
    · rename_i hi
      intro k hk
      rcases List.mem_append.mp hk with hk | hk
      · exact hold k hk
      · obtain rfl := List.mem_singleton.mp hk
        exact ((hm _ hi).child hr).mono fun x hx r hr => hr ▸ hQ x hx
    · exact hold
  | fault hr _ ih =>
    rw [descendants_fault, ← hr.length]
    exact ih fun k hk => (hm k hk).fault hr

theorem descendants_of_unforked (hrun : RightsRun cfg s es s') (hno : .fork i ∉ es) :
    descendants n [i] es = [i] := by
  induction hrun generalizing n with
  | nil => rfl
  | @fork s t s' j as c es _ _ ih =>
    have hj : j ∉ [i] := fun hj => hno (by rw [List.mem_singleton.mp hj]; exact List.mem_cons_self)
    rw [descendants, if_neg hj]
    exact ih fun hmem => hno (List.mem_cons_of_mem _ hmem)
  | fault _ _ ih =>
    rw [descendants_fault]
    exact ih fun hmem => hno (List.mem_cons_of_mem _ hmem)

end Run

/-- After `mmap` at an address of mapped pages, and any page faults and forks, each descendant has
the rights of `prot` exactly if the process has not forked, or the areas of the pages say the same;
and a page fault that is handled leaves a page that can be stored to. -/
theorem protection_survives_iff (cfg : Config) (sym : Layout) (mem : Mem) (kernel : PageTableImpl)
    (φ : Phys) (es : List Event) (s : Os) (os : List Unit) (i addr length : Nat)
    (prot : AddressSpace.Prot) (as : AddressSpace) (s₁ : Os) (later : List Event)
    (s₂ : Os) (os' : List Unit) (hboot : boot cfg sym ⟨mem, PhyPageAllocator.new⟩ = .ok (kernel, φ))
    (hfits : Meets (Os.step cfg) (fun s e => e.fits s = true) (Os.start kernel φ) es)
    (hrun : run (Os.step cfg) (Os.start kernel φ) es = .ok (s, os))
    (has : s.spaces[i]? = some (some as)) (haddr : addr ≠ 0)
    (hmapped : ∀ v ∈ mmap_pages addr length, ∃ x ∈ as.pages, x.vpn = v)
    (hmmap : Os.step cfg s (.mmap i addr length prot) = .ok (s₁, ()))
    (hlater : ∀ ev ∈ later, ev.later = true) (hrun₂ : run (Os.step cfg) s₁ later = .ok (s₂, os')) :
    ((∀ j ∈ descendants s.spaces.length [i] later, ∀ v ∈ mmap_pages addr length,
      permission cfg s₂ j v = some prot) ↔
      .fork i ∉ later ∨ ∀ x ∈ as.pages, x.vpn ∈ mmap_pages addr length → permits x.perm = prot) ∧
    ∀ j va s₃, Os.step cfg s₂ (.handle_pagefault j va) = .ok (s₃, ()) →
    ∃ as', s₃.spaces[j]? = some (some as') ∧
      (lookup cfg s₃.phys.mem as'.page_table (floor va)).any (·.contains .WRITABLE) = true := by
  have h : Consistent cfg s := run_consistent hboot hfits hrun
  obtain ⟨h₁, hspaces, hrights⟩ := mmap_rights h has haddr hmapped hmmap
  have h₂ : Consistent cfg s₂ := run_invariant_of_meets (Consistent cfg)
    (fun s e s' u hs hf hstep => hs.later hf hstep) h₁
      (meets_of_forall (fun e he _ => hlater e he) _) hrun₂
  have hrights_run := h₁.rights_run hlater hrun₂
  have hpage : ∀ v ∈ mmap_pages addr length, ∃ x ∈ as.perms, x.1 = v := by
    intro v hv
    obtain ⟨x, hx, rfl⟩ := hmapped v hv
    exact ⟨_, List.mem_map_of_mem hx, rfl⟩
  have hspace : ∃ as', s₁.spaces[i]? = some (some as') ∧ as'.perms = as.perms :=
    ⟨as, hspaces ▸ has, rfl⟩
  -- the process itself, right after `mmap`
  have hstart : Member cfg (fun x r => x.1 ∈ mmap_pages addr length → r = some prot)
    as.perms s₁ i :=
    ⟨hspace, fun x _ hv => hrights x.1 hv⟩
  rw [← hspaces]
  refine ⟨⟨fun hall => ?_, ?_⟩, fun j va s₃ hstep => ?_⟩
  · by_cases hfork : .fork i ∈ later
    · -- a child has the rights of its areas, and those of `prot`
      obtain ⟨j, hj, hm⟩ := forked_run hrights_run hfork (List.mem_singleton.mpr rfl) hstart
      refine .inr fun x hx hv => ?_
      have harea : permission cfg s₂ j x.vpn = some (permits x.perm) :=
        hm.rights (x.vpn, x.perm) (List.mem_map_of_mem hx)
      exact Option.some.inj (harea.symm.trans (hall j hj x.vpn hv))
    · exact .inl hfork
  · rintro (hno | hagree) j hj v hv
    · obtain ⟨x, hx, rfl⟩ := hpage v hv
      rw [descendants_of_unforked hrights_run hno, List.mem_singleton] at hj
      subst hj
      exact (hstart.run hrights_run fun hfork => absurd hfork hno).rights x hx hv
    · obtain ⟨x, hx, rfl⟩ := hpage v hv
      have hQ : ∀ x ∈ as.perms, x.1 ∈ mmap_pages addr length → some (permits x.2) = some prot := by
        intro y hy hv
        obtain ⟨z, hz, rfl⟩ := List.mem_map.mp hy
        rw [hagree z hz hv]
      have hall : ∀ k ∈ descendants s₁.spaces.length [i] later,
          Member cfg (fun x r => x.1 ∈ mmap_pages addr length → r = some prot) as.perms s₂ k :=
        descendants_run hrights_run hQ (by simpa using hstart)
      exact (hall j hj).rights x hx hv
  · obtain ⟨a, a', hr⟩ := fault_rights h₂ hstep
    refine ⟨a', ?_, hr.writable⟩
    rw [hr.spaces, List.getElem?_set_self (List.getElem?_eq_some_iff.mp hr.space).1]

/-- A child of a process that keeps the rights of its page, and a store of the child. -/
theorem protection_survives_store : ∃ kernel φ s os s₁ s₂ os',
    boot qemu smallLayout ⟨fun _ => 0, PhyPageAllocator.new⟩ = .ok (kernel, φ) ∧
    run (Os.step qemu) (Os.start kernel φ) [.from_elf (onePage 0x1000)] = .ok (s, os) ∧
    Os.step qemu s (.mmap 0 0x1000 4096 ⟨true, true, false⟩) = .ok (s₁, ()) ∧
    run (Os.step qemu) s₁ [.fork 0, .handle_pagefault 1 0x1000] = .ok (s₂, os') ∧
    ∀ j ∈ descendants s.spaces.length [0] [.fork 0, .handle_pagefault 1 0x1000],
    ∀ v ∈ mmap_pages 0x1000 4096,
      permission qemu s₂ j v = some ⟨true, true, false⟩ := by
  obtain ⟨kernel, φ, s, os, hboot, hfits, hrun, hseen⟩ :=
    small_run_meets [.from_elf (onePage 0x1000)] (fun s e => e.fits s = true)
      (fun s => ((s.spaces[0]?).join.any fun as =>
        (mmap_pages 0x1000 4096).all (fun v => as.pages.any (·.vpn == v)) &&
        as.pages.all (fun x => permits x.perm == ⟨true, true, false⟩) &&
        ((Os.step qemu s (.mmap 0 0x1000 4096 ⟨true, true, false⟩)).bind fun t =>
          run (Os.step qemu) t.1 [.fork 0, .handle_pagefault 1 0x1000]).toOption.isSome) = true)
            (by decide +kernel)
  obtain ⟨as, has, hseen⟩ := (Option.any_eq_true _ _).mp hseen
  simp only [Bool.and_eq_true, List.all_eq_true, List.any_eq_true, beq_iff_eq] at hseen
  obtain ⟨⟨hmapped, hagree⟩, hok⟩ := hseen
  obtain ⟨⟨s₁, _⟩, hmmap, hok⟩ := ok_of_bind hok
  obtain ⟨⟨s₂, os'⟩, hrun₂⟩ := ok_of_isSome hok
  obtain ⟨hiff, -⟩ := protection_survives_iff qemu smallLayout _ kernel φ _ s os 0 0x1000 4096
    ⟨true, true, false⟩ as s₁
    [.fork 0, .handle_pagefault 1 0x1000] s₂ os' hboot hfits hrun (Option.join_eq_some_iff.mp has)
      (by decide) hmapped hmmap
    (by simp [Event.later]) hrun₂
  exact ⟨kernel, φ, s, os, s₁, s₂, os', hboot, hrun, hmmap, hrun₂,
    hiff.mpr (.inr fun x hx _ => hagree x hx)⟩

/-- The page is made read-only, and after a `fork` and a page fault the parent stores to it. -/
theorem protection_lost : ∃ kernel φ s os s₁ s₂ os',
    boot qemu smallLayout ⟨fun _ => 0, PhyPageAllocator.new⟩ = .ok (kernel, φ) ∧
    run (Os.step qemu) (Os.start kernel φ) [.from_elf (onePage 0x1000)] = .ok (s, os) ∧
    Os.step qemu s (.mmap 0 0x1000 4096 ⟨true, false, false⟩) = .ok (s₁, ()) ∧
    run (Os.step qemu) s₁ [.fork 0, .handle_pagefault 0 0x1000] = .ok (s₂, os') ∧
    1 ∈ mmap_pages 0x1000 4096 ∧ permission qemu s₁ 0 1 = some ⟨true, false, false⟩ ∧
    permission qemu s₂ 0 1 = some ⟨true, true, false⟩ ∧
    permission qemu s₂ 1 1 = some ⟨true, true, false⟩ ∧
    ∃ as e, s₂.spaces[0]? = some (some as) ∧ lookup qemu s₂.phys.mem as.page_table 1 = some e ∧
      e.contains .WRITABLE = true := by
  obtain ⟨kernel, φ, s, os, hboot, hrun, hseen⟩ := small_run_ends [.from_elf (onePage 0x1000)]
    (fun s => ((Os.step qemu s (.mmap 0 0x1000 4096 ⟨true, false, false⟩)).bind fun t =>
      (run (Os.step qemu) t.1 [.fork 0, .handle_pagefault 0 0x1000]).bind fun r => permit .assert
        (permission qemu t.1 0 1 = some ⟨true, false, false⟩ ∧
          permission qemu r.1 0 1 = some ⟨true, true, false⟩ ∧
          permission qemu r.1 1 1 = some ⟨true, true, false⟩ ∧ ((r.1.spaces[0]?).join.any fun as =>
            (lookup qemu r.1.phys.mem as.page_table 1).any (·.contains .WRITABLE)) = true)
              ()).toOption.isSome)
    (by decide +kernel)
  obtain ⟨⟨s₁, _⟩, hmmap, hseen⟩ := ok_of_bind hseen
  obtain ⟨⟨s₂, os'⟩, hrun₂, hseen⟩ := ok_of_bind hseen
  obtain ⟨_, hseen⟩ := ok_of_isSome hseen
  obtain ⟨h₁, h₂, hchild, hwritable⟩ := (permit_eq_ok hseen).1
  obtain ⟨as, has, hwritable⟩ := (Option.any_eq_true _ _).mp hwritable
  obtain ⟨e, he, hw⟩ := (Option.any_eq_true _ _).mp hwritable
  exact ⟨kernel, φ, s, os, s₁, s₂, os', hboot, hrun, hmmap, hrun₂, by decide, h₁, h₂, hchild, as, e,
    Option.join_eq_some_iff.mp has, he, hw⟩

end HectoOs.Mm
