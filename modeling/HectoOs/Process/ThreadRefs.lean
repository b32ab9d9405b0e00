import HectoOs.Process.Threads

/-! # References to threads

Every operation keeps the counts of the threads equal to the references that exist, and the numbers
of the threads apart. What the address spaces do in between is described by a contract, which the
kernel stacks meet under a condition and the empty contract always.
-/

open HectoOs.Lib HectoOs.Sync
open HectoOs.UserStack (ElfHeader new_thread_environment)
open HectoOs.Wait (TidAllocator)

namespace HectoOs.Threads

/-- The numbers of the threads that are alive. -/
def System.tids (s : System) : List Nat := s.threads.values.map Thread.tid

/-- The references to threads. -/
def System.held (s : System) : List Nat :=
  s.sched_thread.toList ++
    (s.kernel_threads ++ (s.pool ++ (s.next_thread.toList ++ s.new_thread.map Prod.snd)))

/-- The event is about no kernel stack. -/
def user_event : Mm.Event → Prop
  | .insert_kernel_stack _ | .remove_kernel_stack _ => False
  | _ => True

/-- `M os l` says that `l` are the numbers with a kernel stack. Steps that meet `cond` keep it, and
panic only as `may` says. -/
structure Contract (cfg : Mm.Config) (cond : Mm.Os → Mm.Event → Prop) (M : Mm.Os → List Nat → Prop)
    (may : Panic → Prop) : Prop where
  perm : ∀ {os l l'}, M os l → l.Perm l' → M os l'
  can_insert : ∀ {os l tid}, M os l → tid ∉ l → cond os (.insert_kernel_stack tid) →
    ¬(stack_pages tid).all (!kernel_maps cfg os ·) = true → may .stack_mapped
  insert : ∀ {os l tid os' u}, M os l → tid ∉ l → cond os (.insert_kernel_stack tid) →
    os.step cfg (.insert_kernel_stack tid) = .ok (os', u) → M os' (tid :: l)
  can_remove : ∀ {os l tid}, M os (tid :: l) →
    ¬(stack_pages tid).all (kernel_maps cfg os ·) = true → may .stack_unmapped
  remove : ∀ {os l tid os' u}, M os (tid :: l) →
    os.step cfg (.remove_kernel_stack tid) = .ok (os', u) → M os' l
  user : ∀ {os l e os' u}, M os l → user_event e → cond os e →
    os.step cfg e = .ok (os', u) → M os' l
  drop : ∀ os i, cond os (.drop i)
  mm : ∀ p, may (.mm p)
  unimplemented : may .unimplemented
  absent : may .absent

/-- The counts are right for the references `held`, the numbers of the threads, those in `extra` and
the recycled ones are all there are, and the threads and those in `extra` have stacks. -/
structure Core (M : Mm.Os → List Nat → Prop) (held extra mapped : List Nat)
    (s : System) : Prop where
  counted : s.threads.Counted held
  numbers : (extra ++ (s.tids ++ s.TID_ALLOCATOR.recycled)).Perm
    (List.range s.TID_ALLOCATOR.current)
  memory : M s.os (mapped ++ s.tids)

section Ops

variable {cfg : Mm.Config} {cond : Mm.Os → Mm.Event → Prop} {M : Mm.Os → List Nat → Prop}
  {may : Panic → Prop}
  {s : System} {held extra mapped l : List Nat} {tid : Nat} {e : Mm.Event} {es : List Mm.Event}

theorem Core.move {held' : List Nat} {s' : System}
    (h : Core M held extra mapped s) (hp : held.Perm held')
    (hs : s'.threads = s.threads ∧ s'.TID_ALLOCATOR = s.TID_ALLOCATOR ∧ s'.os = s.os) :
    Core M held' extra mapped s' := by
  obtain ⟨ht, ha, ho⟩ := hs
  refine ⟨?_, ?_, ?_⟩
  · rw [ht]
    exact h.counted.perm hp
  · rw [System.tids, ht, ha]
    exact h.numbers
  · rw [System.tids, ht, ho]
    exact h.memory

theorem Core.clone {t : Nat} (h : Core M held extra mapped s) (ht : t ∈ held) :
    Core M (t :: held) extra mapped { s with threads := s.threads.clone t } := by
  refine ⟨h.counted.clone ht, ?_, ?_⟩
  · rw [System.tids, Arcs.values_clone]
    exact h.numbers
  · rw [System.tids, Arcs.values_clone]
    exact h.memory

theorem Core.numbers_nodup (h : Core M held extra mapped s) :
    (extra ++ (s.tids ++ s.TID_ALLOCATOR.recycled)).Nodup :=
  h.numbers.nodup_iff.mpr List.nodup_range

theorem Core.ptr_eq (h : Core M held extra mapped s) {t u : Nat} (ht : t ∈ held)
    (heq : s.tid t = s.tid u) : t = u := by
  obtain ⟨a, ha⟩ := Option.isSome_iff_exists.mp ((h.counted.live t).mpr ht)
  have hn : (s.threads.values.map Thread.tid).Nodup :=
    (List.nodup_append.mp (List.nodup_append.mp h.numbers_nodup).2.1).1
  unfold System.tid at heq
  rw [ha] at heq
  obtain ⟨b, hb, hab⟩ := Option.map_eq_some_iff.mp heq.symm
  exact Arcs.eq_of_nodup_map h.counted hn ha hb hab.symm

/-! ## The address spaces -/

theorem mm_spec (hc : Contract cfg cond M may) (hm : M s.os l) (he : user_event e)
    (hf : Meets (Mm.Os.step cfg) cond s.os (e :: es)) : wp may (mm cfg e)
      (fun _ s' => ∃ os, s' = { s with os } ∧ M os l ∧ Meets (Mm.Os.step cfg) cond os es) s := by
  unfold wp mm
  cases h : s.os.step cfg e with
  | error p => exact hc.mm p
  | ok r => exact ⟨r.1, rfl, hc.user hm he hf.1 h, hf.2 r.1 r.2 h⟩

theorem insert_kernel_stack_area_spec (hc : Contract cfg cond M may) (hm : M s.os l) (ht : tid ∉ l)
    (hf : Meets (Mm.Os.step cfg) cond s.os (.insert_kernel_stack tid :: es)) :
    wp may (insert_kernel_stack_area cfg tid)
      (fun _ s' => ∃ os, s' = { s with os } ∧ M os (tid :: l) ∧
        Meets (Mm.Os.step cfg) cond os es) s := by
  rw [insert_kernel_stack_area, wp_bind, wp_get, wp_bind, wp_require]
  refine ⟨fun _ => ?_, fun hmapped => hc.can_insert hm ht hf.1 (by simpa using hmapped)⟩
  unfold wp mm
  cases h : s.os.step cfg (.insert_kernel_stack tid) with
  | error p => exact hc.mm p
  | ok r => exact ⟨r.1, rfl, hc.insert hm ht hf.1 h, hf.2 r.1 r.2 h⟩

theorem alloc_user_stack_spec {i : Nat} {arguments environments : List (List Byte)}
    {elf : Mm.ElfFile} {header : ElfHeader} (hc : Contract cfg cond M may)
    (hm : M s.os l) (hf : Meets (Mm.Os.step cfg) cond s.os
    (.alloc_user_stack i arguments environments elf header :: es)) :
    wp may (alloc_user_stack cfg i arguments environments elf header)
      (fun _ s' => ∃ os, s' = { s with os } ∧ M os l ∧ Meets (Mm.Os.step cfg) cond os es) s := by
  rw [alloc_user_stack, wp_bind, wp_get, wp_bind, wp_unwrap]
  refine ⟨fun as _ => ?_, fun _ => hc.absent⟩
  rw [wp_bind, wp_unwrap]
  refine ⟨fun top _ => ?_, fun _ => hc.mm _⟩
  refine wp_call (mm_spec hc hm trivial hf) ?_
  rintro _ s' hs
  exact hs

/-! ## Numbers -/

theorem alloc_numbers {a : TidAllocator} {l : List Nat}
    (h : (l ++ a.recycled).Perm (List.range a.current)) :
    (a.alloc.1 :: (l ++ a.alloc.2.recycled)).Perm (List.range a.alloc.2.current) := by
  unfold TidAllocator.alloc
  cases hp : Wait.pop a.recycled with
  | some r =>
    dsimp only
    rw [Wait.pop_eq_some hp, ← List.append_assoc] at h
    exact (List.perm_append_singleton r.1 _).symm.trans h
  | none =>
    rw [Wait.pop_eq_none hp, List.append_nil] at h
    dsimp only
    rw [Wait.pop_eq_none hp, List.append_nil, List.range_succ]
    exact (h.cons _).trans (List.perm_append_singleton a.current _).symm

theorem alloc_spec (h : Core M held [] [] s) : wp may alloc
    (fun tid s' => ∃ a, s' = { s with TID_ALLOCATOR := a } ∧ tid = s.TID_ALLOCATOR.alloc.1 ∧
      Core M held [tid] [] s') s := by
  rw [alloc, wp_bind, wp_get]
  dsimp only
  rw [wp_bind, wp_set, wp_pure]
  exact ⟨_, rfl, rfl, h.counted, alloc_numbers h.numbers, h.memory⟩

theorem dealloc_spec (h : Core M held [tid] mapped s) : wp may (dealloc tid)
    (fun _ s' => ∃ a, s' = { s with TID_ALLOCATOR := a } ∧ Core M held [] mapped s') s := by
  have hlt : tid < s.TID_ALLOCATOR.current := List.mem_range.mp (h.numbers.mem_iff.mp (by simp))
  have hn := h.numbers_nodup
  have hnot : tid ∉ s.TID_ALLOCATOR.recycled := by
    intro hm
    exact (List.nodup_cons.mp hn).1 (List.mem_append_right s.tids hm)
  rw [dealloc, wp_bind, wp_get, TidAllocator.dealloc, if_pos ⟨hlt, hnot⟩, wp_bind, wp_unwrap]
  refine ⟨fun a ha => ?_, fun hnone => by simp at hnone⟩
  obtain rfl := Option.some.inj ha
  rw [wp_set]
  refine ⟨_, rfl, h.counted, ?_, h.memory⟩
  rw [List.nil_append]
  dsimp only
  rw [← List.append_assoc]
  exact (List.perm_append_singleton tid _).trans h.numbers

/-! ## Making and dropping threads -/

/-- A new thread `t` with one reference; nobody else has changed. -/
def Made (M : Mm.Os → List Nat → Prop) (held : List Nat) (s : System) (t : Nat)
    (s' : System) : Prop :=
  ∃ os a threads inner, s' = { s with os, TID_ALLOCATOR := a, threads, inner } ∧
  t = s.threads.next ∧
    threads.next = s.threads.next + 1 ∧ Core M (t :: held) [] [] s'

theorem new_arc_spec {top : Nat} {space : Option Nat} (hc : Contract cfg cond M may)
    (h : Core M held [tid] [tid] s) :
    wp may (new_arc tid top space)
    (fun t s' => ∃ threads inner, s' = { s with threads, inner } ∧ t = s.threads.next ∧
      threads.next = s.threads.next + 1 ∧ Core M (t :: held) [] [] s') s := by
  rw [new_arc, wp_bind, wp_get]
  dsimp only
  rw [wp_bind, wp_set, wp_pure]
  have htids : (s.threads.new ⟨tid⟩).2.values.map Thread.tid = s.tids ++ [tid] := by
    rw [Arcs.values_new, List.map_append]
    rfl
  have hperm : (s.tids ++ [tid]).Perm (tid :: s.tids) := List.perm_append_comm
  refine ⟨_, _, rfl, rfl, rfl, h.counted.new _, ?_, ?_⟩
  · unfold System.tids
    rw [htids]
    exact (hperm.append_right _).trans h.numbers
  · unfold System.tids
    rw [htids]
    exact hc.perm h.memory hperm.symm

theorem Core.fresh (h : Core M held [tid] mapped s) : tid ∉ s.tids :=
  fun hm => (List.nodup_cons.mp h.numbers_nodup).1
    (List.mem_append_left s.TID_ALLOCATOR.recycled hm)

theorem Core.with_os {os : Mm.Os} {mapped' : List Nat} (h : Core M held extra mapped s)
    (hm : M os (mapped' ++ s.tids)) :
    Core M held extra mapped' { s with os } := ⟨h.counted, h.numbers, hm⟩

theorem new_kernel_spec (hc : Contract cfg cond M may) (h : Core M held [] [] s)
    (hf : Meets (Mm.Os.step cfg) cond s.os [.insert_kernel_stack s.TID_ALLOCATOR.alloc.1]) :
    wp may (new_kernel cfg) (Made M held s) s := by
  rw [new_kernel]
  refine wp_call (alloc_spec h) ?_
  rintro tid _ ⟨a, rfl, rfl, h₁⟩
  refine wp_call (insert_kernel_stack_area_spec hc h₁.memory h₁.fresh hf) ?_
  rintro _ _ ⟨os, rfl, hm, _⟩
  refine wp_mono (new_arc_spec hc (h₁.with_os hm)) ?_
  rintro t _ ⟨threads, inner, rfl, ht, hn, h₂⟩
  exact ⟨os, a, threads, inner, rfl, ht, hn, h₂⟩

/-- The changes of the address spaces in `new_thread`. -/
def new_thread_events (arguments : List (List Byte)) (elf : Mm.ElfFile)
    (header : ElfHeader) (s : System) :
    List Mm.Event :=
  [.from_elf elf, .insert_kernel_stack s.TID_ALLOCATOR.alloc.1,
    .alloc_user_stack s.os.spaces.length arguments new_thread_environment elf header]

/-- The changes of the address spaces in `execve`, by a process at the place `i`. -/
def execve_events (argv envp : List (List Byte)) (elf : Mm.ElfFile) (header : ElfHeader)
    (s : System) (i : Nat) :
    List Mm.Event :=
  [.from_elf elf, .drop i, .alloc_user_stack s.os.spaces.length argv envp elf header]

theorem new_thread_spec {arguments : List (List Byte)} {elf : Mm.ElfFile} {header : ElfHeader}
    (hc : Contract cfg cond M may) (h : Core M held [] [] s)
    (hf : Meets (Mm.Os.step cfg) cond s.os (new_thread_events arguments elf header s)) :
    wp may (new_thread cfg arguments elf header) (Made M held s) s := by
  rw [new_thread]
  refine wp_call (alloc_spec h) ?_
  rintro tid _ ⟨a, rfl, rfl, h₁⟩
  rw [wp_bind, wp_get]
  refine wp_call (mm_spec hc h₁.memory trivial hf) ?_
  rintro _ _ ⟨os, rfl, hm, hf⟩
  refine wp_call (insert_kernel_stack_area_spec hc hm h₁.fresh hf) ?_
  rintro _ _ ⟨os, rfl, hm, hf⟩
  refine wp_call (alloc_user_stack_spec hc hm hf) ?_
  rintro top _ ⟨os, rfl, hm, _⟩
  refine wp_mono (new_arc_spec hc (h₁.with_os hm)) ?_
  rintro t _ ⟨threads, inner, rfl, ht, hn, h₂⟩
  exact ⟨os, a, threads, inner, rfl, ht, hn, h₂⟩

theorem fork_spec {t : Nat} {clone_thread : Bool} (hc : Contract cfg cond M may)
    (h : Core M held [] [] s) (hf : ∀ i, (s.inner t).space = some i →
      Meets (Mm.Os.step cfg) cond s.os [.fork i, .insert_kernel_stack s.TID_ALLOCATOR.alloc.1]) :
    wp may (fork cfg t clone_thread) (Made M held s) s := by
  rw [fork]
  refine wp_call (alloc_spec h) ?_
  rintro tid _ ⟨a, rfl, rfl, h₁⟩
  rw [wp_bind, wp_get, wp_bind, wp_unwrap]
  refine ⟨fun i hi => ?_, fun _ => hc.absent⟩
  refine wp_call (mm_spec hc h₁.memory trivial (hf i hi)) ?_
  rintro _ _ ⟨os, rfl, hm, hf⟩
  refine wp_call (insert_kernel_stack_area_spec hc hm h₁.fresh hf) ?_
  rintro _ _ ⟨os, rfl, hm, hf⟩
  rw [wp_bind, wp_require]
  refine ⟨fun _ => ?_, fun _ => hc.unimplemented⟩
  refine wp_mono (new_arc_spec hc (h₁.with_os hm)) ?_
  rintro t _ ⟨threads, inner, rfl, ht, hn, h₂⟩
  exact ⟨os, a, threads, inner, rfl, ht, hn, h₂⟩

theorem drop_spec {t : Nat} (hc : Contract cfg cond M may) (h : Core M held [tid] [tid] s)
    (ht : s.running ≠ some t) :
    wp may (drop cfg t ⟨tid⟩)
    (fun _ s' => ∃ os a, s' = { s with os, TID_ALLOCATOR := a } ∧ Core M held [] [] s') s := by
  rw [drop, wp_bind, wp_get, wp_bind, wp_require]
  refine ⟨fun _ => ?_, fun hrun => absurd ht (by simpa using hrun)⟩
  rw [wp_bind, wp_require]
  refine ⟨fun _ => ?_, fun hmapped => hc.can_remove h.memory (by simpa using hmapped)⟩
  have hremove : wp may (mm cfg (.remove_kernel_stack tid))
    (fun _ s' => ∃ os, s' = { s with os } ∧ M os s.tids) s := by
    unfold wp mm
    cases hs : s.os.step cfg (.remove_kernel_stack tid) with
    | error p => exact hc.mm p
    | ok r => exact ⟨r.1, rfl, hc.remove h.memory hs⟩
  refine wp_call hremove ?_
  rintro _ _ ⟨os, rfl, hm⟩
  have h' : Core M held [tid] [] { s with os } := ⟨h.counted, h.numbers, hm⟩
  refine wp_call (dealloc_spec h') ?_
  rintro _ _ ⟨a, rfl, h''⟩
  split
  · rename_i i _
    have hf : Meets (Mm.Os.step cfg) cond os [.drop i] := meets_singleton.mpr (hc.drop _ _)
    refine wp_mono (mm_spec hc h''.memory trivial hf) ?_
    rintro _ _ ⟨os', rfl, hm', _⟩
    exact ⟨os', a, rfl, h''.counted, h''.numbers, hm'⟩
  · exact ⟨os, a, rfl, h''⟩

theorem release_spec {t : Nat} (hc : Contract cfg cond M may) (h : Core M (t :: held) [] [] s)
    (hrun : ∀ r, s.running = some r → r ∈ held) : wp may (release cfg t)
      (fun _ s' => ∃ os a threads, s' = { s with os, TID_ALLOCATOR := a, threads } ∧
        threads.next = s.threads.next ∧
        (t ∈ held → os = s.os) ∧ Core M held [] [] s') s := by
  rw [release, wp_bind, wp_get]
  dsimp only
  rw [wp_bind, wp_set, h.counted.drop_fst]
  have hcount := h.counted.count t
  rw [List.count_cons_self] at hcount
  by_cases hm : t ∈ held
  · rw [if_pos hm]
    have hpos := List.count_pos_iff.mpr hm
    refine ⟨_, _, _, rfl, Arcs.next_drop, fun _ => rfl, h.counted.drop, ?_, ?_⟩
    · unfold System.tids
      rw [Arcs.values_drop_shared (by omega)]
      exact h.numbers
    · unfold System.tids
      rw [Arcs.values_drop_shared (by omega)]
      exact h.memory
  · rw [if_neg hm]
    have hzero := List.count_eq_zero.mpr hm
    obtain ⟨⟨tid⟩, hget⟩ := Option.isSome_iff_exists.mp ((h.counted.live t).mpr List.mem_cons_self)
    rw [hget]
    dsimp only
    have hlt : t < s.threads.next := h.counted.lt_next (by rw [hget]; rfl)
    have hperm : s.tids.Perm (tid :: (s.threads.drop t).2.values.map Thread.tid) :=
      (Arcs.values_drop_last hlt (by omega) hget).map Thread.tid
    have h' : Core M held [tid] [tid] { s with threads := (s.threads.drop t).2 } := by
      refine ⟨h.counted.drop, ?_, hc.perm h.memory hperm⟩
      exact ((hperm.append_right _).symm).trans h.numbers
    refine wp_mono (drop_spec hc h' fun hr => hm (hrun t hr)) ?_
    rintro _ _ ⟨os, a, rfl, h''⟩
    exact ⟨os, a, _, rfl, Arcs.next_drop, fun hm' => absurd hm' hm, h''⟩

/-! ## The invariant -/

/-- Whoever runs is held by somebody who does not run: by the scheduling loop that dispatched it, or
by the parent that switched to it. -/
structure Inv (M : Mm.Os → List Nat → Prop) (s : System) : Prop where
  core : Core M s.held [] [] s
  pool : s.pool.Nodup
  /-- Threads of the pool are no kernel threads. -/
  user : ∀ t ∈ s.pool, t ∉ s.kernel_threads ∧ s.sched_thread ≠ some t
  current : ∀ t, s.current = some t →
    t ∈ s.pool ∧ (s.next_thread = some t ∨ t ∈ s.new_thread.map Prod.snd) ∧
    t ∉ s.new_thread.map Prod.fst
  idle : s.current = none → s.next_thread = none
  parents : (s.new_thread.map Prod.fst).Nodup
  waiting : ∀ x ∈ s.new_thread, x.1 ∈ s.pool
  sched : s.sched_thread.isSome

/-- What can have happened to the threads of a state `s` later on. -/
structure Later (s s' : System) : Prop where
  next : s.threads.next ≤ s'.threads.next
  sched_thread : s'.sched_thread = s.sched_thread
  kernel_threads : ∀ t ∈ s'.kernel_threads, t ∈ s.kernel_threads ∨ s.threads.next ≤ t
  pool : ∀ t ∈ s'.pool, t ∈ s.pool ∨ s.threads.next ≤ t
  next_thread : ∀ t, s'.next_thread = some t → s.next_thread = some t ∨ t ∈ s.pool
  new_thread : ∀ x ∈ s'.new_thread, x ∈ s.new_thread ∨ s.threads.next ≤ x.2

theorem Later.refl (s : System) : Later s s :=
  ⟨le_refl _, rfl, fun _ => .inl, fun _ => .inl, fun _ => .inl, fun _ => .inl⟩

variable {t : Nat}

theorem Inv.lt_next (h : Inv M s) (ht : t ∈ s.held) : t < s.threads.next :=
  h.core.counted.fresh t ht

theorem mem_held_of_pool (ht : t ∈ s.pool) : t ∈ s.held :=
  List.mem_append_right _ (List.mem_append_right _ (List.mem_append_left _ ht))

theorem mem_held_of_sched (ht : s.sched_thread = some t) : t ∈ s.held :=
  List.mem_append_left _ (by rw [ht]; exact List.mem_singleton_self t)

theorem Inv.running_cases (h : Inv M s) {r : Nat} (hr : s.running = some r) :
    s.sched_thread = some r ∨ r ∈ s.pool := by
  cases hcur : s.current with
  | none =>
    rw [System.running, hcur] at hr
    exact .inl hr
  | some u =>
    rw [System.running, hcur] at hr
    obtain rfl := Option.some.inj hr
    exact .inr (h.current u hcur).1

theorem Inv.with_inner {os : Mm.Os} {inner : Nat → ThreadInner} (h : Inv M s) (hm : M os s.tids) :
    Inv M { s with os, inner } := ⟨⟨h.core.counted, h.core.numbers, hm⟩,
  h.pool, h.user, h.current, h.idle, h.parents, h.waiting, h.sched⟩

theorem Later.with_inner (os : Mm.Os) (inner : Nat → ThreadInner) : Later s { s with os, inner } :=
  ⟨le_refl _, rfl, fun _ => .inl, fun _ => .inl, fun _ => .inl, fun _ => .inl⟩

/-! ## Steps -/

theorem new_kernel_step (hc : Contract cfg cond M may) (h : Inv M s)
    (hf : Meets (Mm.Os.step cfg) cond s.os [.insert_kernel_stack s.TID_ALLOCATOR.alloc.1]) :
    wp may (Event.exec cfg .new_kernel) (fun _ s' => Inv M s' ∧ Later s s') s := by
  rw [Event.exec]
  refine wp_call (new_kernel_spec hc h.core hf) ?_
  rintro t _ ⟨os, a, threads, inner, rfl, rfl, hn, h'⟩
  rw [wp_modify]
  refine ⟨⟨h'.move List.perm_middle.symm ⟨rfl, rfl, rfl⟩, h.pool, fun u hu => ?_,
    h.current, h.idle, h.parents, h.waiting, h.sched⟩,
    ⟨?_, rfl, fun u hu => ?_, fun _ => .inl, fun _ => .inl, fun _ => .inl⟩⟩
  · have hlt := h.lt_next (mem_held_of_pool hu)
    refine ⟨fun hm => ?_, (h.user u hu).2⟩
    rcases List.mem_cons.mp hm with rfl | hm
    · exact Nat.lt_irrefl _ hlt
    · exact (h.user u hu).1 hm
  · rw [hn]
    exact Nat.le_succ _
  · rcases List.mem_cons.mp hu with rfl | hu
    · exact .inr (le_refl _)
    · exact .inl hu

theorem drop_kernel_step (hc : Contract cfg cond M may) (h : Inv M s) :
    wp may (Event.exec cfg (.drop_kernel t)) (fun _ s' => Inv M s' ∧ Later s s') s := by
  rw [Event.exec, wp_bind, wp_get, wp_bind, wp_require]
  refine ⟨fun ht => ?_, fun _ => hc.absent⟩
  have ht : t ∈ s.kernel_threads := of_decide_eq_true ht
  rw [wp_bind, wp_set]
  have hp : s.held.Perm (t :: { s with kernel_threads := s.kernel_threads.erase t }.held) :=
    (((List.perm_cons_erase ht).append_right _).append_left _).trans List.perm_middle
  refine wp_mono (release_spec hc (h.core.move hp ⟨rfl, rfl, rfl⟩) fun r hr => ?_) ?_
  · rcases h.running_cases hr with hr | hr
    · exact mem_held_of_sched hr
    · exact mem_held_of_pool hr
  · rintro _ _ ⟨os, a, threads, rfl, hn, _, h'⟩
    exact ⟨⟨h', h.pool, fun u hu => ⟨fun hm => (h.user u hu).1 (List.mem_of_mem_erase hm),
      (h.user u hu).2⟩, h.current,
      h.idle, h.parents, h.waiting, h.sched⟩, ⟨Nat.le_of_eq hn.symm, rfl,
        fun u hu => .inl (List.mem_of_mem_erase hu), fun _ => .inl,
      fun _ => .inl, fun _ => .inl⟩⟩

theorem by_sched_spec {x : Op Unit} {Q : Unit → System → Prop} (hc : Contract cfg cond M may)
    (hx : s.current = none → wp may x Q s) : wp may (by_sched x) Q s := by
  rw [by_sched, wp_bind, wp_get, wp_bind, wp_require]
  exact ⟨fun hcur => hx (Option.isNone_iff_eq_none.mp hcur), fun _ => hc.absent⟩

theorem by_current_spec {f : Nat → Op Unit} {Q : Unit → System → Prop}
    (hc : Contract cfg cond M may) (hf : ∀ t, s.current = some t → wp may (f t) Q s) :
    wp may (by_current f) Q s := by
  rw [by_current, wp_bind, wp_get, wp_bind, wp_unwrap]
  exact ⟨hf, fun _ => hc.absent⟩

theorem Inv.next_not_mem (h : Inv M s) : s.threads.next ∉ s.held :=
  fun hm => Nat.lt_irrefl _ (h.lt_next hm)

/-! The pool with a thread that has just been made. -/

theorem Inv.pool_new (h : Inv M s) : (s.pool ++ [s.threads.next]).Nodup := by
  refine List.nodup_append.mpr ⟨h.pool, List.nodup_singleton _, fun u hu v hv huv => ?_⟩
  obtain rfl := List.mem_singleton.mp hv
  exact h.next_not_mem (huv ▸ mem_held_of_pool hu)

theorem Inv.user_new (h : Inv M s) (ht : t ∈ s.pool ++ [s.threads.next]) :
    t ∉ s.kernel_threads ∧ s.sched_thread ≠ some t := by
  rcases List.mem_append.mp ht with ht | ht
  · exact h.user t ht
  · obtain rfl := List.mem_singleton.mp ht
    refine ⟨fun hm => ?_, fun hs => ?_⟩
    · exact h.next_not_mem (List.mem_append_right _ (List.mem_append_left _ hm))
    · exact h.next_not_mem (mem_held_of_sched hs)

theorem mem_pool_new (ht : t ∈ s.pool ++ [s.threads.next]) : t ∈ s.pool ∨ s.threads.next ≤ t := by
  rcases List.mem_append.mp ht with ht | ht
  · exact .inl ht
  · exact .inr (Nat.le_of_eq (List.mem_singleton.mp ht).symm)

theorem new_thread_step {arguments : List (List Byte)} {elf : Mm.ElfFile} {header : ElfHeader}
    (hc : Contract cfg cond M may) (h : Inv M s)
    (hf : Meets (Mm.Os.step cfg) cond s.os (new_thread_events arguments elf header s)) :
    wp may (Event.exec cfg (.new_thread arguments elf header))
    (fun _ s' => Inv M s' ∧ Later s s') s := by
  rw [Event.exec]
  refine by_sched_spec hc fun hcur => ?_
  refine wp_call (new_thread_spec hc h.core hf) ?_
  rintro t _ ⟨os, a, threads, inner, rfl, rfl, hn, h'⟩
  rw [add_thread, wp_modify]
  have hp : (s.threads.next :: s.held).Perm { s with pool := s.pool ++ [s.threads.next] }.held := by
    rw [List.perm_iff_count]
    intro u
    simp only [System.held, List.count_append, List.count_cons, List.count_nil]
    omega
  refine ⟨⟨h'.move hp ⟨rfl, rfl, rfl⟩, h.pool_new, fun u => h.user_new, ?_, h.idle, h.parents,
      fun x hx => List.mem_append_left _ (h.waiting x hx), h.sched⟩,
    ⟨?_, rfl, fun _ => .inl, fun _ hu => mem_pool_new (s := s) hu, fun _ => .inl, fun _ => .inl⟩⟩
  · intro u hu
    rw [hcur] at hu
    cases hu
  · rw [hn]
    exact Nat.le_succ _

theorem lookup_perm {l : List (Nat × Nat)} {child : Nat} (hn : (l.map Prod.fst).Nodup)
    (h : l.lookup t = some child) :
    l.Perm ((t, child) :: l.filter (·.1 ≠ t)) := by
  obtain ⟨l₁, l₂, rfl, hl₁⟩ := List.lookup_eq_some_iff.mp h
  rw [List.map_append, List.map_cons, List.perm_middle.nodup_iff, List.nodup_cons] at hn
  have hout : ∀ x ∈ l₁ ++ l₂, x.1 ≠ t := by
    rintro x hx rfl
    refine hn.1 ?_
    rw [← List.map_append]
    exact List.mem_map.mpr ⟨x, hx, rfl⟩
  have hfilter : (l₁ ++ (t, child) :: l₂).filter (·.1 ≠ t) = l₁ ++ l₂ := by
    rw [List.filter_append, List.filter_cons_of_neg (by simp), ← List.filter_append]
    exact List.filter_eq_self.mpr fun x hx => decide_eq_true (hout x hx)
  rw [hfilter]
  exact List.perm_middle

theorem resume_spec (hc : Contract cfg cond M may) (h : Core M s.held [] [] s)
    (hpool : s.pool.Nodup) (huser : ∀ t ∈ s.pool, t ∉ s.kernel_threads ∧ s.sched_thread ≠ some t)
    (hparents : (s.new_thread.map Prod.fst).Nodup) (hwaiting : ∀ x ∈ s.new_thread, x.1 ∈ s.pool)
    (hsched : s.sched_thread.isSome) (ht : t ∈ s.pool) (hnext : s.next_thread = some t) :
    wp may (resume cfg t)
      (fun _ s' => ∃ os a threads new_thread,
        s' = { s with os, TID_ALLOCATOR := a, threads, new_thread, current := some t } ∧
        threads.next = s.threads.next ∧ (∀ x ∈ new_thread, x ∈ s.new_thread) ∧ Inv M s') s := by
  rw [resume, wp_bind, wp_modify, wp_bind, wp_get]
  cases hl : s.new_thread.lookup t with
  | none =>
    have hnot : t ∉ s.new_thread.map Prod.fst := by
      intro hm
      obtain ⟨x, hx, rfl⟩ := List.mem_map.mp hm
      have := List.lookup_eq_none_iff.mp hl x hx
      simp at this
    refine ⟨_, _, _, s.new_thread, rfl, rfl, fun _ => id, h.move (.refl _) ⟨rfl, rfl, rfl⟩,
      hpool, huser, ?_, ?_, hparents,
      hwaiting, hsched⟩
    · rintro u ⟨⟩
      exact ⟨ht, .inl hnext, hnot⟩
    · rintro ⟨⟩
  | some child =>
    dsimp only
    rw [wp_bind, wp_set]
    have hl' := lookup_perm hparents hl
    have hp : s.held.Perm
      (child :: { s with new_thread := s.new_thread.filter (·.1 ≠ t) }.held) := by
      rw [List.perm_iff_count]
      intro u
      have hcount := (hl'.map Prod.snd).count_eq u
      rw [List.map_cons, List.count_cons] at hcount
      dsimp only at hcount
      simp only [System.held, List.count_append, List.count_cons]
      omega
    refine wp_mono (release_spec hc (h.move hp ⟨rfl, rfl, rfl⟩) fun r hr => ?_) ?_
    · obtain rfl := Option.some.inj hr
      exact mem_held_of_pool ht
    · rintro _ _ ⟨os, a, threads, rfl, hn, _, h'⟩
      refine ⟨os, a, threads, _, rfl, hn, fun x hx => List.mem_of_mem_filter hx,
        h'.move (.refl _) ⟨rfl, rfl, rfl⟩, hpool, huser,
        ?_, ?_, ?_, fun x hx => hwaiting x (List.mem_of_mem_filter hx), hsched⟩
      · rintro u ⟨⟩
        refine ⟨ht, .inl hnext, fun hm => ?_⟩
        obtain ⟨x, hx, hxt⟩ := List.mem_map.mp hm
        exact of_decide_eq_true (List.mem_filter.mp hx).2 hxt
      · rintro ⟨⟩
      · exact hparents.sublist (List.filter_sublist.map Prod.fst)

theorem schedule_step (hc : Contract cfg cond M may) (h : Inv M s) :
    wp may (Event.exec cfg .schedule) (fun _ s' => Inv M s' ∧ Later s s') s := by
  rw [Event.exec]
  refine by_sched_spec hc fun hcur => ?_
  rw [schedule, get_next, wp_bind, wp_bind, wp_get]
  have hidle := h.idle hcur
  cases hpool : s.pool with
  | nil => exact ⟨h, .refl s⟩
  | cons t pool =>
    dsimp only
    rw [wp_bind, wp_set, wp_pure]
    dsimp only
    rw [wp_bind, wp_get]
    have ht : t ∈ s.pool := by simp [hpool]
    have hperm : (pool ++ [t]).Perm s.pool := by
      rw [hpool]
      exact List.perm_append_singleton t pool
    have hmem : ∀ u ∈ pool ++ [t], u ∈ s.pool := fun u hu => hperm.mem_iff.mp hu
    have hnodup : (pool ++ [t]).Nodup := hperm.nodup_iff.mpr h.pool
    have huser : ∀ u ∈ pool ++ [t], u ∉ s.kernel_threads ∧ s.sched_thread ≠ some u :=
      fun u hu => h.user u (hmem u hu)
    have hclone := h.core.clone (mem_held_of_pool ht)
    rw [wp_ite]
    constructor
    · intro _
      rw [wp_bind, wp_set]
      have hp : (t :: s.held).Perm { s with pool := pool ++ [t], next_thread := some t }.held := by
        rw [List.perm_iff_count]
        intro u
        have hcount := hperm.count_eq u
        rw [List.count_append] at hcount
        simp only [System.held, hidle, List.count_append, List.count_cons,
          Option.toList_none, Option.toList_some,
          List.count_nil] at hcount ⊢
        omega
      refine wp_mono (resume_spec hc (hclone.move hp ⟨rfl, rfl, rfl⟩) hnodup huser h.parents
        (fun x hx => hperm.mem_iff.mpr (h.waiting x hx)) h.sched
          (List.mem_append_right _ (List.mem_singleton_self t)) rfl) ?_
      rintro _ _ ⟨os, a, threads, new_thread, rfl, hn, hsub, h'⟩
      refine ⟨h', ⟨Nat.le_of_eq hn.symm, rfl, fun _ => .inl, fun u hu => .inl (hmem u hu),
        ?_, fun x hx => .inl (hsub x hx)⟩⟩
      rintro u ⟨⟩
      exact .inr ht
    · intro _
      have hp : (t :: s.held).Perm (t :: { s with pool := pool ++ [t] }.held) := by
        refine .cons t ((List.Perm.append_right _ ?_).append_left _ |>.append_left _)
        exact hperm.symm
      refine wp_mono (release_spec hc (hclone.move hp ⟨rfl, rfl, rfl⟩) fun r hr => ?_) ?_
      · rcases h.running_cases hr with hr | hr
        · exact mem_held_of_sched hr
        · exact mem_held_of_pool (hperm.mem_iff.mpr hr)
      · rintro _ _ ⟨os, a, threads, rfl, hn, _, h'⟩
        refine ⟨⟨h', hnodup, huser, fun u hu => ?_, h.idle, h.parents,
          fun x hx => hperm.mem_iff.mpr (h.waiting x hx), h.sched⟩,
          ⟨Nat.le_of_eq hn.symm, rfl, fun _ => .inl, fun u hu => .inl (hmem u hu),
            fun _ => .inl, fun _ => .inl⟩⟩
        rw [hcur] at hu
        cases hu

theorem yield_to_sched_spec (hc : Contract cfg cond M may) (h : Core M s.held [] [] s)
    (hpool : s.pool.Nodup) (huser : ∀ t ∈ s.pool, t ∉ s.kernel_threads ∧ s.sched_thread ≠ some t)
    (hparents : (s.new_thread.map Prod.fst).Nodup) (hwaiting : ∀ x ∈ s.new_thread, x.1 ∈ s.pool)
    (hsched : s.sched_thread.isSome) : wp may (yield_to_sched cfg)
      (fun _ s' => ∃ os a threads, s' =
        { s with os, TID_ALLOCATOR := a, threads, next_thread := none, current := none } ∧
        threads.next = s.threads.next ∧ Inv M s') s := by
  rw [yield_to_sched, wp_bind, wp_modify, wp_bind, wp_get]
  have hinv : ∀ os a threads, Core M { s with next_thread := none }.held [] []
      { s with os, TID_ALLOCATOR := a, threads, next_thread := none, current := none } →
      Inv M { s with os, TID_ALLOCATOR := a, threads, next_thread := none, current := none } := by
    intro os a threads h'
    refine ⟨h', hpool, huser, ?_, fun _ => rfl, hparents, hwaiting, hsched⟩
    rintro u ⟨⟩
  cases hnext : s.next_thread with
  | none =>
    have hheld : s.held = { s with next_thread := none }.held := by rw [System.held, hnext]; rfl
    refine ⟨s.os, s.TID_ALLOCATOR, s.threads, by rw [← hnext], rfl, hinv _ _ _ ?_⟩
    exact h.move (.of_eq hheld) ⟨rfl, rfl, rfl⟩
  | some t =>
    dsimp only
    rw [wp_bind, wp_set]
    have hp : s.held.Perm (t :: { s with next_thread := none }.held) := by
      rw [List.perm_iff_count]
      intro u
      simp only [System.held, hnext, List.count_append, List.count_cons,
        Option.toList_some, Option.toList_none,
        List.count_nil]
      omega
    refine wp_mono (release_spec hc (h.move hp ⟨rfl, rfl, rfl⟩) fun r hr => ?_) ?_
    · exact mem_held_of_sched (s := { s with next_thread := none }) hr
    · rintro _ _ ⟨os, a, threads, rfl, hn, _, h'⟩
      exact ⟨os, a, threads, rfl, hn, hinv _ _ _ (h'.move (.refl _) ⟨rfl, rfl, rfl⟩)⟩

theorem Inv.yield_spec (hc : Contract cfg cond M may) (h : Inv M s) : wp may (yield_to_sched cfg)
    (fun _ s' => Inv M s' ∧ Later s s') s := by
  refine wp_mono (yield_to_sched_spec hc h.core h.pool h.user h.parents h.waiting h.sched) ?_
  rintro _ _ ⟨os, a, threads, rfl, hn, h'⟩
  refine ⟨h', ⟨Nat.le_of_eq hn.symm, rfl, fun _ => .inl, fun _ => .inl, ?_, fun _ => .inl⟩⟩
  rintro u ⟨⟩

theorem remove_thread_spec (hc : Contract cfg cond M may) (h : Inv M s)
    (hcur : s.current = some t) :
    wp may (remove_thread cfg t)
    (fun _ s' => ∃ a threads pool, s' = { s with TID_ALLOCATOR := a, threads, pool } ∧
      threads.next = s.threads.next ∧ s.pool.Perm (t :: pool) ∧ Core M s'.held [] [] s') s := by
  obtain ⟨ht, hkept, _⟩ := h.current t hcur
  rw [remove_thread, wp_bind, wp_get]
  dsimp only
  have hiff : ∀ u ∈ s.pool, (s.tid u = s.tid t ↔ u = t) :=
    fun u hu => ⟨fun heq => h.core.ptr_eq (mem_held_of_pool hu) heq, fun heq => by rw [heq]⟩
  have hremoved : s.pool.filter (s.tid · = s.tid t) = [t] := by
    rw [List.filter_congr fun u hu => decide_eq_decide.mpr (hiff u hu)]
    rw [List.filter_eq, List.count_eq_one_of_mem h.pool ht]
    rfl
  obtain ⟨pool, hrest⟩ : ∃ pool, pool = s.pool.filter (s.tid · ≠ s.tid t) := ⟨_, rfl⟩
  have hperm : s.pool.Perm (t :: pool) := by
    have hsplit := List.filter_append_perm (fun u => decide (s.tid u = s.tid t)) s.pool
    rw [hremoved] at hsplit
    rw [hrest]
    simpa using hsplit.symm
  rw [wp_bind, wp_set, ← hrest, hremoved]
  dsimp only
  have hp : s.held.Perm (t :: { s with pool }.held) := by
    rw [List.perm_iff_count]
    intro u
    have hcount := hperm.count_eq u
    rw [List.count_cons] at hcount
    simp only [System.held, List.count_append, List.count_cons]
    omega
  have hstill : t ∈ { s with pool }.held := by
    refine List.mem_append_right _ (List.mem_append_right _ (List.mem_append_right _ ?_))
    rcases hkept with hnext | hchild
    · exact List.mem_append_left _ (by rw [hnext]; exact List.mem_singleton_self t)
    · exact List.mem_append_right _ hchild
  refine wp_mono (release_spec hc (h.core.move hp ⟨rfl, rfl, rfl⟩) fun r hr => ?_) ?_
  · rw [System.running, hcur] at hr
    obtain rfl := Option.some.inj hr
    exact hstill
  · rintro _ _ ⟨os, a, threads, rfl, hn, hos, h'⟩
    rw [hos hstill] at h' ⊢
    exact ⟨a, threads, pool, rfl, hn, hperm, h'⟩

theorem exit_step (hc : Contract cfg cond M may) (h : Inv M s)
    (hf : ∀ t i, s.current = some t → (s.inner t).space = some i →
      Meets (Mm.Os.step cfg) cond s.os [.munmap i (s.inner t).user_stack_top]) :
    wp may (Event.exec cfg .exit)
      (fun _ s' => (Inv M s' ∧ Later s s') ∧ s'.next_thread = none ∧
        ∀ t, s.current = some t → t ∉ s'.pool) s := by
  rw [Event.exec]
  refine by_current_spec hc fun t hcur => ?_
  rw [sys_exit, wp_bind, set_status, wp_modify]
  have h₁ : Inv M
    { s with inner := Function.update s.inner t { s.inner t with status := .Zombie } } :=
    h.with_inner h.core.memory
  refine wp_call (remove_thread_spec hc h₁ hcur) ?_
  rintro _ _ ⟨a, threads, pool, rfl, hn, hperm, h'⟩
  have hperm : s.pool.Perm (t :: pool) := hperm
  have hnodup := List.nodup_cons.mp (hperm.nodup_iff.mp h.pool)
  have hsub : ∀ u ∈ pool, u ∈ s.pool := fun u hu => hperm.mem_iff.mpr (List.mem_cons_of_mem _ hu)
  -- the thread that runs does not wait in `sys_clone`
  have hwaiting : ∀ x ∈ s.new_thread, x.1 ∈ pool := by
    intro x hx
    rcases List.mem_cons.mp (hperm.mem_iff.mp (h.waiting x hx)) with rfl | hm
    · exact absurd (List.mem_map_of_mem hx) (h.current _ hcur).2.2
    · exact hm
  rw [wp_bind, wp_get, wp_bind, wp_unwrap]
  refine ⟨fun i hi => ?_, fun _ => hc.absent⟩
  dsimp only at hi ⊢
  rw [Function.update_self] at hi ⊢
  refine wp_call (mm_spec hc h'.memory trivial (hf t i hcur hi)) ?_
  rintro _ _ ⟨os, rfl, hm, _⟩
  refine wp_mono (yield_to_sched_spec hc ⟨h'.counted, h'.numbers,
    hm⟩ hnodup.2 (fun u hu => h.user u (hsub u hu)) h.parents
    hwaiting h.sched) ?_
  rintro _ _ ⟨os, a, threads, rfl, hn', hinv⟩
  refine ⟨⟨hinv, ⟨Nat.le_of_eq (hn'.trans hn).symm, rfl, fun _ => .inl,
    fun u hu => .inl (hsub u hu), ?_, fun _ => .inl⟩⟩, rfl,
    ?_⟩
  · rintro u ⟨⟩
  · intro u hu
    obtain rfl := Option.some.inj (hcur.symm.trans hu)
    exact hnodup.1

theorem clone_step {clone_thread : Bool} (hc : Contract cfg cond M may) (h : Inv M s)
    (hf : ∀ t i, s.current = some t → (s.inner t).space = some i →
      Meets (Mm.Os.step cfg) cond s.os [.fork i, .insert_kernel_stack s.TID_ALLOCATOR.alloc.1]) :
    wp may (Event.exec cfg (.clone clone_thread)) (fun _ s' => Inv M s' ∧ Later s s') s := by
  rw [Event.exec]
  refine by_current_spec hc fun t hcur => ?_
  obtain ⟨ht, _, hparent⟩ := h.current t hcur
  rw [sys_clone]
  refine wp_call (fork_spec hc h.core fun i => hf t i hcur) ?_
  rintro child _ ⟨os, a, threads, inner, rfl, rfl, hn, h'⟩
  rw [wp_bind, wp_modify, wp_bind, add_thread, wp_modify, wp_bind, set_status, wp_modify, wp_modify]
  dsimp only
  have hnot := h.next_not_mem
  have hnew : s.threads.next ∉ s.new_thread.map Prod.fst := by
    intro hm
    obtain ⟨x, hx, heq⟩ := List.mem_map.mp hm
    exact hnot (heq ▸ mem_held_of_pool (h.waiting x hx))
  have hcore := h'.clone List.mem_cons_self
  have hp : (s.threads.next :: s.threads.next :: s.held).Perm { s with
      pool := s.pool ++ [s.threads.next], new_thread := (t, s.threads.next) :: s.new_thread }.held := by
    rw [List.perm_iff_count]
    intro u
    simp only [System.held, List.count_append, List.count_cons, List.map_cons, List.count_nil]
    omega
  refine ⟨⟨hcore.move hp ⟨rfl, rfl, rfl⟩, h.pool_new, fun u => h.user_new,
    ?_, ?_, ?_, fun x hx => ?_, h.sched⟩,
    ⟨?_, rfl, fun _ => .inl, fun _ hu => mem_pool_new (s := s) hu, fun _ => .inl, fun x hx => ?_⟩⟩
  · rintro u ⟨⟩
    refine ⟨List.mem_append_right _ (List.mem_singleton_self _),
      .inr List.mem_cons_self, fun hm => ?_⟩
    rcases List.mem_cons.mp hm with heq | hm
    · exact hnot (heq ▸ mem_held_of_pool ht)
    · exact hnew hm
  · rintro ⟨⟩
  · exact List.nodup_cons.mpr ⟨hparent, h.parents⟩
  · rcases List.mem_cons.mp hx with rfl | hx
    · exact List.mem_append_left _ ht
    · exact List.mem_append_left _ (h.waiting x hx)
  · dsimp only
    rw [Arcs.next_clone, hn]
    exact Nat.le_succ _
  · rcases List.mem_cons.mp hx with rfl | hx
    · exact .inr (le_refl _)
    · exact .inl hx

theorem status_step {status : ThreadStatus} (h : Inv M s) : wp may (set_status t status)
    (fun _ s' => Inv M s' ∧ Later s s') s := by
  rw [set_status, wp_modify]
  exact ⟨h.with_inner h.core.memory, .with_inner _ _⟩

theorem execve_step {argv envp : List (List Byte)} {elf : Mm.ElfFile} {header : ElfHeader}
    (hc : Contract cfg cond M may) (h : Inv M s)
    (hf : ∀ t i, s.current = some t → (s.inner t).space = some i →
      Meets (Mm.Os.step cfg) cond s.os (execve_events argv envp elf header s i)) :
    wp may (Event.exec cfg (.execve argv envp elf header))
    (fun _ s' => Inv M s' ∧ Later s s') s := by
  rw [Event.exec]
  refine by_current_spec hc fun t hcur => ?_
  rw [execve, wp_bind, wp_get, wp_bind, wp_unwrap]
  refine ⟨fun i hi => ?_, fun _ => hc.absent⟩
  refine wp_call (mm_spec hc h.core.memory trivial (hf t i hcur hi)) ?_
  rintro _ _ ⟨os, rfl, hm, hf⟩
  refine wp_call (mm_spec hc hm trivial hf) ?_
  rintro _ _ ⟨os, rfl, hm, hf⟩
  refine wp_call (alloc_user_stack_spec hc hm hf) ?_
  rintro top _ ⟨os, rfl, hm, _⟩
  rw [wp_modify]
  exact ⟨h.with_inner hm, .with_inner _ _⟩

theorem memory_step {call : MemoryCall} (hc : Contract cfg cond M may) (h : Inv M s)
    (hf : ∀ t i, s.current = some t → (s.inner t).space = some i →
      Meets (Mm.Os.step cfg) cond s.os [call.event i]) :
    wp may (Event.exec cfg (.memory call)) (fun _ s' => Inv M s' ∧ Later s s') s := by
  rw [Event.exec]
  refine by_current_spec hc fun t hcur => ?_
  rw [wp_bind, wp_get, wp_bind, wp_unwrap]
  refine ⟨fun i hi => ?_, fun _ => hc.absent⟩
  have he : user_event (call.event i) := by cases call <;> exact trivial
  refine wp_mono (mm_spec hc h.core.memory he (hf t i hcur hi)) ?_
  rintro _ _ ⟨os, rfl, hm, _⟩
  exact ⟨h.with_inner hm, .with_inner _ _⟩

end Ops

/-! ## Runs -/

/-- The thread that runs, and its address space. -/
def System.user (s : System) : Option (Nat × Nat) :=
  s.current.bind fun t => (s.inner t).space.map fun i => (t, i)

/-- What a step does to the address spaces, apart from threads that it destroys. -/
def Event.spaces (s : System) : Event → List Mm.Event
  | .new_kernel => [.insert_kernel_stack s.TID_ALLOCATOR.alloc.1]
  | .new_thread arguments elf header => new_thread_events arguments elf header s
  | .clone _ => s.user.elim [] fun u => [.fork u.2, .insert_kernel_stack s.TID_ALLOCATOR.alloc.1]
  | .execve argv envp elf header => s.user.elim [] fun u => execve_events argv envp elf header s u.2
  | .memory call => s.user.elim [] fun u => [call.event u.2]
  | .exit => s.user.elim [] fun u => [.munmap u.2 (s.inner u.1).user_stack_top]
  | .drop_kernel _ | .schedule | .yield | .wait | .wake _ => []

/-- All of that meets `cond`. -/
def Event.Fits (cfg : Mm.Config) (cond : Mm.Os → Mm.Event → Prop) (s : System) (e : Event) : Prop :=
  Meets (Mm.Os.step cfg) cond s.os (e.spaces s)

section Runs

variable {cfg : Mm.Config} {cond : Mm.Os → Mm.Event → Prop} {M : Mm.Os → List Nat → Prop}
  {may : Panic → Prop}
  {s s' : System} {e : Event} {u : Unit}

theorem user_fits {f : Nat × Nat → List Mm.Event}
    (h : Meets (Mm.Os.step cfg) cond s.os (s.user.elim [] f)) (t i : Nat)
    (hcur : s.current = some t) (hi : (s.inner t).space = some i) :
    Meets (Mm.Os.step cfg) cond s.os (f (t, i)) := by
  rw [System.user, hcur, Option.bind_some, hi] at h
  exact h

theorem exec_spec (hc : Contract cfg cond M may) (h : Inv M s) (hf : e.Fits cfg cond s) :
    wp may (e.exec cfg) (fun _ s' => Inv M s' ∧ Later s s') s := by
  cases e with
  | new_kernel => exact new_kernel_step hc h hf
  | drop_kernel t => exact drop_kernel_step hc h
  | new_thread arguments elf header => exact new_thread_step hc h hf
  | schedule => exact schedule_step hc h
  | yield => exact by_current_spec hc fun _ _ => h.yield_spec hc
  | wait => exact by_current_spec hc fun _ _ => status_step h
  | wake t => exact status_step h
  | clone clone_thread => exact clone_step hc h (user_fits hf)
  | execve argv envp elf header => exact execve_step hc h (user_fits hf)
  | memory call => exact memory_step hc h (user_fits hf)
  | exit => exact wp_mono (exit_step hc h (user_fits hf)) fun _ _ h' => h'.1

theorem step_inv (hc : Contract cfg cond M may) (h : Inv M s) (hf : e.Fits cfg cond s)
    (hs : step cfg s e = .ok (s', u)) :
    Inv M s' ∧ Later s s' := by
  obtain ⟨_, t, ht, heq⟩ := wp_map_ok (exec_spec hc h hf) hs
  obtain ⟨rfl, _⟩ := Prod.mk.inj heq
  exact ht

theorem step_may (hc : Contract cfg cond M may) (h : Inv M s) (hf : e.Fits cfg cond s) {p : Panic}
    (hs : step cfg s e = .error p) : may p := wp_map_error (exec_spec hc h hf) hs

theorem empty_core {os : Mm.Os} (hm : M os []) : Core M [] [] [] (System.empty os) := by
  have htids : (System.empty os).tids = [] := rfl
  refine ⟨Arcs.Counted.empty, .refl _, ?_⟩
  rw [htids]
  exact hm

/-- Nobody holds a thread, and nobody runs. -/
structure Fresh (s : System) : Prop where
  pool : s.pool = []
  next_thread : s.next_thread = none
  new_thread : s.new_thread = []
  kernel_threads : s.kernel_threads = []
  current : s.current = none

theorem empty_fresh (os : Mm.Os) : Fresh (System.empty os) := ⟨rfl, rfl, rfl, rfl, rfl⟩

theorem switch_to_schedule_spec (hc : Contract cfg cond M may) (h : Core M [] [] [] s)
    (hs : Fresh s) (hf : cond s.os (.insert_kernel_stack s.TID_ALLOCATOR.alloc.1)) :
    wp may (switch_to_schedule cfg) (fun _ s' => Inv M s') s := by
  rw [switch_to_schedule]
  refine wp_call (new_kernel_spec hc h (meets_singleton.mpr hf)) ?_
  rintro t _ ⟨os, a, threads, inner, rfl, _, _, h'⟩
  rw [wp_modify]
  have hheld : [t] = { s with sched_thread := some t }.held := by
    simp [System.held, hs.pool, hs.next_thread, hs.new_thread, hs.kernel_threads]
  refine ⟨h'.move (.of_eq hheld) ⟨rfl, rfl, rfl⟩, ?_, ?_, ?_, fun _ => hs.next_thread, ?_, ?_, rfl⟩
  · simp [hs.pool]
  · simp [hs.pool]
  · simp [hs.current]
  · simp [hs.new_thread]
  · simp [hs.new_thread]

end Runs

end HectoOs.Threads
