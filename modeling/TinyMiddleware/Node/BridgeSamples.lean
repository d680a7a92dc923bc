import TinyMiddleware.Node.BridgeService

/-! One sample on its way to the callback: from its reader's history to the pool, and from
there to a worker. -/
namespace TinyMiddleware.Bridge

open TinyMiddleware.Core Runs Fairness

variable {n : Nat} {τ κ μ : Type} {s t : System n τ κ μ} {typeName : τ → String}

/-- A sample leaves its reader by being taken, or by being evicted. -/
theorem history_step {e : Event n τ κ μ} {r : Nat} {sample : Sample μ}
    (unread : sample ∈ s.history r)
    (kept : ∀ i, e = .evict r i → (s.history r)[i]? ≠ some sample)
    (hstep : step typeName s e = some t) : sample ∈ t.history r ∨ sample ∈ t.taken r := by
  cases moves hstep with
  | inserted reader other known =>
      by_cases hr : r = reader
      · subst hr
        exact .inl (by simp [unread])
      · exact .inl (by simpa [Function.update_of_ne hr] using unread)
  | evicted reader i present =>
      by_cases hr : r = reader
      · subst hr
        obtain ⟨j, hj⟩ := List.mem_iff_getElem?.mp unread
        refine .inl ?_
        simp only [Function.update_self]
        refine List.mem_eraseIdx_iff_getElem?.mpr ⟨j, ?_, hj⟩
        rintro rfl
        exact kept j rfl hj
      · exact .inl (by simpa [Function.update_of_ne hr] using unread)
  | took m reader callback efd i other inside here present =>
      by_cases hr : r = reader
      · subst hr
        obtain ⟨j, hj⟩ := List.mem_iff_getElem?.mp unread
        simp only [takeSample, Function.update_self]
        by_cases hji : j = i
        · subst hji
          rw [present] at hj
          cases Option.some.inj hj
          exact .inr (by simp)
        · exact .inl (List.mem_eraseIdx_iff_getElem?.mpr ⟨j, hji, hj⟩)
      · exact .inl (by simpa [takeSample, Function.update_of_ne hr] using unread)
  | read handler =>
      rw [(read_frame s handler).1]
      exact .inl unread
  | _ => exact .inl unread

/-- What is in the log stays where it is. -/
theorem log_kept {e : Event n τ κ μ} {i : Nat} {entry : Int × Task κ μ}
    (logged : s.log[i]? = some entry) (hstep : step typeName s e = some t) :
    t.log[i]? = some entry := by
  cases moves hstep with
  | enqueued =>
      rw [List.getElem?_append_left (List.getElem?_eq_some_iff.mp logged).1]
      exact logged
  | read handler =>
      rw [(read_frame s handler).2.2.2.1]
      exact logged
  | _ => exact logged

theorem mem_acceptedFrom {efd : Int} {task : Task κ μ} :
    task ∈ acceptedFrom s efd ↔ ∃ i : Nat, s.log[i]? = some (efd, task) := by
  unfold acceptedFrom
  rw [← List.mem_iff_getElem?]
  simp

theorem mem_inFlight {efd : Int} {task : Task κ μ} (h : task ∈ inFlight s efd) :
    ∃ handler, current s.node = some handler ∧ handler.fd = efd ∧
      s.handlerPc = .enqueueing task := by
  unfold inFlight at h
  split at h
  · next handler task' hcurrent hpc =>
      split at h
      · next hfd =>
          rw [List.mem_singleton] at h
          exact ⟨handler, hcurrent, hfd, h ▸ hpc⟩
      · cases h
  · cases h

section Called
variable {x : Execution (only (n := n) (κ := κ) (μ := μ) typeName Event.serving)}

/-- What has been taken is handed to the pool. -/
theorem taken_logged (fair : FairlyServed x) (bounded : Bounded x) {k : Nat}
    (hk : Reachable typeName (x.state k) ∧ Up (x.state k)) {m : τ} {r : Nat} {callback : κ}
    {efd : Int} (known : Known (x.state k) (.subscription m (some r) callback efd)) {content : μ}
    (taken : ⟨content, true⟩ ∈ (x.state k).taken r) :
    ∃ (j i : Nat), k ≤ j ∧ (x.state j).log[i]? = some (efd, .message callback content) := by
  have hpaired := (sequenced hk.1).paired m r callback efd known
  have hmem : (Task.message callback content : Task κ μ) ∈
      acceptedFrom (x.state k) efd ++ inFlight (x.state k) efd := by
    rw [hpaired]
    exact List.mem_map.mpr ⟨_, List.mem_filter.mpr ⟨taken, rfl⟩, rfl⟩
  obtain haccepted | hflight := List.mem_append.mp hmem
  · obtain ⟨i, hi⟩ := mem_acceptedFrom.mp haccepted
    exact ⟨k, i, le_rfl, hi⟩
  · obtain ⟨handler, hinside, rfl, hpc⟩ := mem_inFlight hflight
    obtain ⟨j, i, hkj, -, hi⟩ := enqueueing_logged fair bounded hk hinside hpc (Nat.zero_le _)
    exact ⟨j, i, hkj, hi⟩

/-- Every valid sample that is not evicted gets its callback called, and the call returns. -/
theorem sample_called (positive : 0 < n) (fair : FairlyServed x) (bounded : Bounded x) {k : Nat}
    (hk : Reachable typeName (x.state k) ∧ Up (x.state k)) {r : Nat} {content : μ}
    (unread : ⟨content, true⟩ ∈ (x.state k).history r)
    (kept : ∀ j i, k ≤ j → x.event j = some (.evict r i) →
      ((x.state j).history r)[i]? ≠ some ⟨content, true⟩) :
    ∃ m callback efd, Known (x.state k) (.subscription m (some r) callback efd) ∧
      ∃ (j i : Nat), k ≤ j ∧ (x.state j).log[i]? = some (efd, .message callback content) ∧
        i ∈ (x.state j).pool.returned := by
  have halive : ∀ j, k ≤ j → Reachable typeName (x.state j) ∧ Up (x.state j) :=
    fun j hkj => x.keeps alive_step hk hkj
  have hw := wiring hk.1
  have hreader : r < (x.state k).node.readers.length := by
    by_contra hge
    rw [(noticed hk.1).unused r (Nat.le_of_not_lt hge)] at unread
    cases unread
  obtain ⟨efd, hefd⟩ := listenerFd_isSome hw hreader
  obtain ⟨m, callback, hknown⟩ := hw.served r efd hefd
  refine ⟨m, callback, efd, hknown, ?_⟩
  obtain ⟨a, hka, htaken⟩ : ∃ j, k ≤ j ∧ ⟨content, true⟩ ∈ (x.state j).taken r := by
    obtain ⟨j, hkj, hempty⟩ :=
      reader_drains fair bounded r k ⟨hk, List.ne_nil_of_mem unread⟩
    obtain ⟨i, e, hki, hi, hgone, hevent, hstep⟩ :=
      x.ends (I := fun s => ⟨content, true⟩ ∈ s.history r) hkj unread (by simp [hempty])
    refine ⟨i + 1, Nat.le_succ_of_le hki, ?_⟩
    refine (history_step hi ?_ (restrict_eq_some.mp hstep).2).resolve_left hgone
    rintro m rfl
    exact kept i m hki hevent
  obtain ⟨b, i, hab, hlogged⟩ :=
    taken_logged fair bounded (halive a hka) (known_later hka hk hknown) htaken
  have hkb := hka.trans hab
  have hi : i < (x.state b).pool.accepted.length := by
    rw [← (sequenced (halive b hkb).1).accepted, List.length_map]
    exact (List.getElem?_eq_some_iff.mp hlogged).1
  obtain ⟨j, hbj, hreturned⟩ := tasks_return positive serving_of_quiet fair.loop fair.workers
    (fun j => (halive (b + j) (hkb.trans (Nat.le_add_right b j))).1) i hi
  refine ⟨j, i, hkb.trans hbj, ?_, hreturned⟩
  exact x.keeps (I := fun s => s.log[i]? = some (efd, .message callback content))
    (fun _ _ _ hs hstep => log_kept hs (restrict_eq_some.mp hstep).2) hlogged hbj

end Called

end TinyMiddleware.Bridge
