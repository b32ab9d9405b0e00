import HectoOs.Process.ThreadRefs

/-! # How long a thread lives

A thread that exits gives up its place in the pool on its own stack. It is still held by whoever
switched to it, and goes when the last of these goes on.
-/

open HectoOs.Lib

namespace HectoOs.Threads

section Life

variable {cfg : Mm.Config} {s s' : System} {t : Nat} {u : Unit}

theorem any_memory (cfg : Mm.Config) :
    Contract cfg (fun _ _ => True) (fun _ _ => True) (fun p => p ≠ .running) where
  perm _ _ := trivial
  can_insert _ _ _ _ := nofun
  insert _ _ _ _ := trivial
  can_remove _ _ := nofun
  remove _ _ := trivial
  user _ _ _ _ := trivial
  drop _ _ := trivial
  mm _ := nofun
  unimplemented := nofun
  absent := nofun

abbrev RefInv : System → Prop := Inv fun _ _ => True

theorem any_fits (s : System) (e : Event) : e.Fits cfg (fun _ _ => True) s := meets_true _ _

theorem step_refInv {e : Event} (h : RefInv s) (hs : step cfg s e = .ok (s', u)) :
    RefInv s' ∧ Later s s' :=
  step_inv (any_memory cfg) h (any_fits s e) hs

/-- A thread that has left the pool, and is no kernel thread. -/
structure Retired (s : System) (t : Nat) : Prop where
  lt : t < s.threads.next
  pool : t ∉ s.pool
  kernel_threads : t ∉ s.kernel_threads
  sched_thread : s.sched_thread ≠ some t

theorem Retired.later (h : Retired s t) (hl : Later s s') : Retired s' t := by
  have hnot : ¬s.threads.next ≤ t := Nat.not_le.mpr h.lt
  refine ⟨Nat.lt_of_lt_of_le h.lt hl.next, fun hm => ?_, fun hm => ?_, fun hs => ?_⟩
  · exact (hl.pool t hm).elim h.pool hnot
  · exact (hl.kernel_threads t hm).elim h.kernel_threads hnot
  · rw [hl.sched_thread] at hs
    exact h.sched_thread hs

theorem Retired.mem_held (h : Retired s t) (hm : t ∈ s.held) :
    s.next_thread = some t ∨ ∃ p, (p, t) ∈ s.new_thread := by
  simp only [System.held, List.mem_append, Option.mem_toList, List.mem_map] at hm
  rcases hm with hm | hm | hm | hm | ⟨x, hx, rfl⟩
  · exact absurd hm h.sched_thread
  · exact absurd hm h.kernel_threads
  · exact absurd hm h.pool
  · exact .inl hm
  · exact .inr ⟨x.1, hx⟩

theorem exit_retires (h : RefInv s) (hcur : s.current = some t)
    (hs : step cfg s .exit = .ok (s', u)) :
    Retired s' t ∧ s'.next_thread = none := by
  obtain ⟨ht, _, _⟩ := h.current t hcur
  obtain ⟨hk, hsched⟩ := h.user t ht
  obtain ⟨_, w, ⟨⟨_, hl⟩, hnext, hpool⟩, heq⟩ :=
    wp_map_ok (exit_step (any_memory cfg) h (fun _ _ _ _ => meets_true _ _)) hs
  obtain ⟨rfl, _⟩ := Prod.mk.inj heq
  have hlt := h.lt_next (mem_held_of_pool ht)
  refine ⟨⟨Nat.lt_of_lt_of_le hlt hl.next, hpool t hcur, fun hm => ?_, ?_⟩, hnext⟩
  · exact (hl.kernel_threads t hm).elim hk (Nat.not_le.mpr hlt)
  · rw [hl.sched_thread]
    exact hsched

theorem exited_destroyed {s₁ s₂ : System} {fs : List Event} {os : List Unit}
    (h : RefInv s) (hcur : s.current = some t) (hs : step cfg s .exit = .ok (s₁, u))
    (hrun : run (step cfg) s₁ fs = .ok (s₂, os)) (hresumed : ∀ p, (p, t) ∈ s.new_thread →
    Visits (step cfg) (fun s => s.current = some p) s₁ fs) :
    s₂.threads.strong_count t = 0 := by
  obtain ⟨h₁, hl⟩ := step_refInv h hs
  obtain ⟨hr₁, hnext⟩ := exit_retires h hcur hs
  have hlt := h.lt_next (mem_held_of_pool (h.current t hcur).1)
  have hstep : ∀ a e b o, (RefInv a ∧ Retired a t) → step cfg a e = .ok (b, o) → RefInv b ∧
    Retired b t :=
    fun a e b o ha hab => ⟨(step_refInv ha.1 hab).1, ha.2.later (step_refInv ha.1 hab).2⟩
  obtain ⟨h₂, hr₂⟩ := run_invariant (fun a => RefInv a ∧ Retired a t) hstep ⟨h₁, hr₁⟩ hrun
  rw [h₂.core.counted.count, List.count_eq_zero]
  intro hm
  rcases hr₂.mem_held hm with hn₂ | ⟨p, hp₂⟩
  · -- the scheduling loop never takes it again
    have hback : s₁.next_thread = some t := by
      refine @run_backward _ _ _ _ (step cfg) (fun a => RefInv a ∧ Retired a t)
        (fun a => a.next_thread = some t) hstep
        (fun a e b o ha hab hb => ?_) s₁ s₂ fs os ⟨h₁, hr₁⟩ hrun hn₂
      exact ((step_refInv ha.1 hab).2.next_thread t hb).resolve_right ha.2.pool
    rw [hnext] at hback
    cases hback
  · -- the parent has held it all along, but a thread that runs holds no child
    have hback : ∀ a e b o, (RefInv a ∧ Retired a t) → step cfg a e = .ok (b, o) →
      (p, t) ∈ b.new_thread →
        (p, t) ∈ a.new_thread := by
      intro a e b o ha hab hb
      exact ((step_refInv ha.1 hab).2.new_thread _ hb).resolve_right (Nat.not_le.mpr ha.2.lt)
    have hp₁ : (p, t) ∈ s₁.new_thread :=
      run_backward (fun a => RefInv a ∧ Retired a t) hstep hback ⟨h₁, hr₁⟩ hrun hp₂
    have hp : (p, t) ∈ s.new_thread := (hl.new_thread _ hp₁).resolve_right (Nat.not_le.mpr hlt)
    obtain ⟨a, ha, hcur, hpa⟩ := visits_backward (fun a => RefInv a ∧ Retired a t) hstep hback
      ⟨h₁, hr₁⟩ (hresumed p hp) hrun hp₂
    exact (ha.1.current p hcur).2.2 (List.mem_map_of_mem hpa)

theorem start_refInv {os : Mm.Os} {s₀ : System}
    (hstart : switch_to_schedule cfg (System.empty os) = .ok ((), s₀)) :
    RefInv s₀ := by
  have hcore : Core (fun _ _ => True) [] [] [] (System.empty os) := empty_core trivial
  have hfresh := empty_fresh os
  generalize System.empty os = s at hstart hcore hfresh
  have h := wp_ok (switch_to_schedule_spec (any_memory cfg) hcore hfresh trivial) hstart
  exact h

/-- However threads clone, yield, are preempted, dispatched and exit: no thread is destroyed while
it runs, the thread that runs is alive, and a thread that exits is destroyed once the parents that
hold it have run again. -/
theorem running_thread_kept (cfg : Mm.Config) (os₀ : Mm.Os) (s₀ : System) (es : List Event)
    (hstart : switch_to_schedule cfg (System.empty os₀) = .ok ((), s₀)) :
    run (step cfg) s₀ es ≠ .error .running ∧
    ∀ s os, run (step cfg) s₀ es = .ok (s, os) →
      (∀ t, s.running = some t → 0 < s.threads.strong_count t) ∧
      ∀ t, s.current = some t → ∀ s₁ u, step cfg s .exit = .ok (s₁, u) →
        ∀ fs s₂ os₂, run (step cfg) s₁ fs = .ok (s₂, os₂) →
          (∀ p, (p, t) ∈ s.new_thread → Visits (step cfg) (fun s => s.current = some p) s₁ fs) →
          s₂.threads.strong_count t = 0 := by
  have h₀ := start_refInv hstart
  refine ⟨?_, fun s os hrun => ?_⟩
  · refine run_ne_error RefInv (fun a e b o ha hab => (step_refInv ha hab).1)
      (fun a e ha hab => ?_) h₀
    exact step_may (any_memory cfg) ha (any_fits a e) hab rfl
  · have h : RefInv s := run_invariant RefInv (fun a e b o ha hab => (step_refInv ha hab).1) h₀ hrun
    refine ⟨fun t ht => ?_,
      fun t hcur s₁ u hs fs s₂ os₂ hrun₂ hresumed => exited_destroyed h hcur hs hrun₂ hresumed⟩
    rw [h.core.counted.count, List.count_pos_iff]
    rcases h.running_cases ht with ht | ht
    · exact mem_held_of_sched ht
    · exact mem_held_of_pool ht

end Life

/-- The child of a process exits, and is destroyed when the process goes on. -/
theorem running_thread_kept_clone : ∃ os₀ s₀ s os s₁ u s₂ os₂,
    switch_to_schedule Mm.qemu (System.empty os₀) = .ok ((), s₀) ∧
    run (step Mm.qemu) s₀ [new_ls 0x1000, .schedule, .clone false] = .ok (s, os) ∧
    s.current = some 2 ∧ s.new_thread = [(1, 2)] ∧ step Mm.qemu s .exit = .ok (s₁, u) ∧
    run (step Mm.qemu) s₁ [.schedule] = .ok (s₂, os₂) ∧ s₂.threads.strong_count 2 = 0 := by
  have hall : (small_system.bind fun s₀ =>
      (run (step Mm.qemu) s₀ [new_ls 0x1000, .schedule, .clone false]).bind fun r =>
        (permit .absent (r.1.current = some 2 ∧ r.1.new_thread = [(1, 2)]) ()).bind fun _ =>
          (step Mm.qemu r.1 .exit).bind fun q => (step Mm.qemu q.1 .schedule).bind fun w =>
            permit .absent (w.1.current = some 1) ()).toOption.isSome := by decide +kernel
  obtain ⟨s₀, hs₀, hall⟩ := ok_of_bind hall
  obtain ⟨kernel, φ, _, hstart⟩ := small_system_eq hs₀
  obtain ⟨⟨s, os⟩, hrun, hall⟩ := ok_of_bind hall
  obtain ⟨_, hseen, hall⟩ := ok_of_bind hall
  obtain ⟨⟨hcur, hchild⟩, _⟩ := permit_eq_ok hseen
  obtain ⟨⟨s₁, u⟩, hexit, hall⟩ := ok_of_bind hall
  obtain ⟨⟨s₂, v⟩, hstep, hall⟩ := ok_of_bind hall
  obtain ⟨_, hseen⟩ := ok_of_isSome hall
  have hparent := (permit_eq_ok hseen).1
  have hrun₂ : run (step Mm.qemu) s₁ [.schedule] = .ok (s₂, [v]) := by simp [run, hstep]
  refine ⟨_, s₀, s, os, s₁, u, s₂, [v], hstart, hrun, hcur, hchild, hexit, hrun₂, ?_⟩
  refine ((running_thread_kept Mm.qemu _ s₀ _ hstart).2 s os hrun).2 2 hcur s₁ u hexit _ s₂ _ hrun₂
    fun p hp => ?_
  rw [hchild, List.mem_singleton] at hp
  obtain rfl := (Prod.mk.inj hp).1
  exact .inr ⟨s₂, v, hstep, hparent⟩

end HectoOs.Threads
