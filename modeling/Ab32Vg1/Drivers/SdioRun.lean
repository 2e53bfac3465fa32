import Ab32Vg1.Drivers.Sdio
import Ab32Vg1.Kernel.EventWaiter

/-! The completions of one SDIO request.  They are kept apart where each interrupt finds the thread
ready for the one completion that it posts. -/

namespace Ab32Vg1.Drivers

open Kernel ProofKit Rtos

/-- The place of a completion in the order of the waits. -/
def SdioRequest.place (req : SdioRequest) : Completion → Nat
  | .command => 0
  | .block i => i + 1
  | .stop => (req.data.map Prod.snd).getD 0 + 1

theorem SdioRequest.blockStart_next (req : SdioRequest) (i : Nat) :
    (req.blockStart i).nextWait = some (.block i) := by
  unfold blockStart
  split
  · split <;> rfl
  · rfl

theorem SdioRequest.afterData_next {req : SdioRequest} {v : Completion}
    (h : req.afterData.nextWait = some v) : v = .stop := by
  unfold afterData at h
  split at h
  · exact (Option.some.inj h).symm
  · cases h

/-- The waits go forward. -/
theorem SdioRequest.after_next {req : SdioRequest} {w v : Completion}
    (h : (req.after w).nextWait = some v) : req.place w < req.place v := by
  cases w with
  | command =>
    simp only [after] at h
    split at h
    · rw [blockStart_next] at h
      obtain rfl := Option.some.inj h
      exact Nat.succ_pos 0
    · obtain rfl := afterData_next h
      exact Nat.succ_pos _
  | block i =>
    simp only [after] at h
    split at h
    · next dir blks hdata =>
      split at h
      · rw [blockStart_next] at h
        obtain rfl := Option.some.inj h
        exact Nat.lt_succ_self _
      · next hlast =>
        obtain rfl := afterData_next h
        have hlast : i + 1 = blks := not_not.mp hlast
        simp [place, hdata, hlast]
    · cases h
  | stop => cases h

/-- No wait leads into the middle of a wait. -/
theorem SdioRequest.after_ne_waiting (req : SdioRequest) (w v : Completion) :
    req.after w ≠ .waiting v := by
  have hdata : req.afterData ≠ .waiting v := by
    unfold afterData
    split <;> simp
  have hblock : ∀ i, req.blockStart i ≠ .waiting v := fun i => by
    unfold blockStart
    split
    · split <;> simp
    · simp
  cases w with
  | command =>
    simp only [after]
    split
    · exact hblock 0
    · exact hdata
  | block i =>
    simp only [after]
    split
    · split
      · exact hblock _
      · exact hdata
    · simp
  | stop => simp [after]

namespace Sdio

variable {c c' : Sdio} {w v : Completion} {os : Rtos}

theorem expected_of_ne (h : ∀ w, c.pc ≠ .waiting w) : c.expected = c.pc.nextWait := by
  unfold expected
  split
  · exact absurd ‹_› (h _)
  · rfl

theorem expected_waiting (h : c.pc = .waiting w) :
    c.expected = if c.thread ∈ c.suspended then some w else (c.request.after w).nextWait := by
  unfold expected
  rw [h]

theorem expected_congr (hpc : c'.pc = c.pc) (hthread : c'.thread = c.thread)
    (hrequest : c'.request = c.request) (hlist : c'.suspended = c.suspended) :
    c'.expected = c.expected := by
  unfold expected
  rw [hpc, hthread, hrequest, hlist]

/-- The completions are apart: at most one is unread, and it is the one that is waited for next. -/
structure SdioInv (c : Sdio) : Prop where
  inv : Inv c.os
  alone : ∀ u ∈ c.suspended, u = c.thread
  waiting : c.thread ∈ c.suspended → ∃ w, c.pc = .waiting w ∧ c.unread = [] ∧
    (c.os.threads c.thread).event_set = SDIO_WAIT ∧
    (c.os.threads c.thread).event_info = SDIO_OPTION ∧ (c.os.threads c.thread).error = RT_EOK
  woken : ∀ w, c.pc = .waiting w → c.thread ∉ c.suspended →
    (c.os.threads c.thread).error = RT_EOK → c.taken = [w]
  timer : ∀ w, c.pc = .waiting w → (c.os.threads c.thread).thread_timer.activated = true →
    c.thread ∈ c.suspended
  bits : c.event.set &&& SDIO_WAIT ≠ 0 ↔ c.unread ≠ []
  unread : c.unread = [] ∨ ∃ w, c.unread = [w] ∧ c.expected = some w
  enabled : c.SDxCON.getLsbD 0 = true
  posted : ∀ v ∈ c.posted, v ∈ c.unread ∨
    ∀ w, c.expected = some w → c.request.place v < c.request.place w
  satisfied : ∀ w taken, (w, taken) ∈ c.log → taken = [w]
  lost : ∀ w signalled, (w, signalled) ∈ c.timeouts → signalled = false

theorem Fresh.sdioInv (h : Fresh c) : SdioInv c := by
  obtain ⟨howed, hflagged, hposted, hunread, htaken⟩ := h.nothing
  obtain ⟨hlog, htimeouts⟩ := h.empty
  have hnot : c.thread ∉ c.suspended := by simp [h.waiting]
  have hpc : ∀ w, c.pc ≠ .waiting w := by simp [h.pc]
  refine ⟨h.inv, by simp [h.waiting], fun hm => absurd hm hnot, fun w hw => absurd hw (hpc w),
    fun w hw => absurd hw (hpc w), by simp [h.set, hunread], Or.inl hunread, h.enabled,
    by simp [hposted], by simp [hlog], by simp [htimeouts]⟩

/-- Whatever leaves the thread, the event and the request alone keeps the completions apart. -/
theorem SdioInv.same (h : SdioInv c) (hos : Elsewhere (· = c.event.suspend_thread) (· = c.thread)
    c.os os) : SdioInv { c with os := os } := by
  have hlist : Sdio.suspended { c with os := os } = c.suspended := hos.suspend _ rfl
  have hkept := hos.kept c.thread rfl
  have hexp : Sdio.expected { c with os := os } = c.expected := expected_congr rfl rfl rfl hlist
  refine ⟨hos.inv, fun u hu => h.alone u (hlist ▸ hu), fun hm => ?_, fun w hw hm herr => ?_,
    fun w hw ht => ?_, h.bits, hexp ▸ h.unread, h.enabled, hexp ▸ h.posted, h.satisfied, h.lost⟩
  · obtain ⟨w, hpc, hunread, hset, hinfo, herr⟩ := h.waiting (hlist ▸ hm)
    exact ⟨w, hpc, hunread, hkept.event_set.trans hset, hkept.event_info.trans hinfo,
      hkept.error.trans herr⟩
  · exact h.woken w hw (fun hin => hm (hlist.symm ▸ hin)) (hkept.error ▸ herr)
  · exact hlist.symm ▸ h.timer w hw (hkept.timer ht)

/-- A step of the thread that keeps what it waits for next. -/
theorem SdioInv.moves {pc : SdioPc} {owed : List Completion} (h : SdioInv c)
    (hpc : ∀ w, c.pc ≠ .waiting w) (hpc' : ∀ w, pc ≠ .waiting w)
    (hnext : pc.nextWait = c.pc.nextWait) : SdioInv { c with pc := pc, owed := owed } := by
  have hexp : Sdio.expected { c with pc := pc, owed := owed } = c.expected := by
    rw [expected_of_ne hpc, expected_of_ne (c := { c with pc := pc, owed := owed }) hpc']
    exact hnext
  have hnot : c.thread ∉ c.suspended := fun hm => by
    obtain ⟨w, hw, -⟩ := h.waiting hm
    exact hpc w hw
  exact ⟨h.inv, h.alone, fun hm => absurd hm hnot, fun w hw => absurd hw (hpc' w),
    fun w hw => absurd hw (hpc' w), h.bits, hexp ▸ h.unread, h.enabled, hexp ▸ h.posted, h.satisfied,
    h.lost⟩

/-- What `received` changes, the flags of the controller apart. -/
theorem received_same (c : Sdio) (w : Completion) (err : Int) (status : Option (BitVec 32)) :
    let c' := c.received w err status
    c'.os = c.os ∧ c'.event = c.event ∧ c'.thread = c.thread ∧ c'.request = c.request ∧
      c'.pc = c.request.after w ∧ c'.taken = [] ∧ c'.unread = c.unread ∧ c'.posted = c.posted ∧
      c'.timeouts = c.timeouts ∧
      c'.log = (if err = RT_EOK then (w, c.taken) :: c.log else c.log) ∧
      (c.SDxCON.getLsbD 0 = true → c'.SDxCON.getLsbD 0 = true) := by
  cases w with
  | command => exact ⟨rfl, rfl, rfl, rfl, rfl, rfl, rfl, rfl, rfl, rfl, fun h => h⟩
  | stop => exact ⟨rfl, rfl, rfl, rfl, rfl, rfl, rfl, rfl, rfl, rfl, fun h => h⟩
  | block i =>
    refine ⟨rfl, rfl, rfl, rfl, rfl, rfl, rfl, rfl, rfl, rfl, fun h => ?_⟩
    simp only [received, blockReceived]
    split
    · simp [h, HW_SDIO_CON_DFLAG]
    · exact h

/-- A wait that ends: the thread goes on after it. -/
theorem received_inv {err : Int} {status : Option (BitVec 32)} (hinv : Inv c.os)
    (halone : ∀ u ∈ c.suspended, u = c.thread) (hnot : c.thread ∉ c.suspended)
    (hbits : c.event.set &&& SDIO_WAIT ≠ 0 ↔ c.unread ≠ [])
    (hunread : c.unread = [] ∨ ∃ v, c.unread = [v] ∧ (c.request.after w).nextWait = some v)
    (henabled : c.SDxCON.getLsbD 0 = true)
    (hposted : ∀ v ∈ c.posted, v ∈ c.unread ∨
      ∀ u, (c.request.after w).nextWait = some u → c.request.place v < c.request.place u)
    (htaken : err = RT_EOK → c.taken = [w])
    (hsatisfied : ∀ w taken, (w, taken) ∈ c.log → taken = [w])
    (hlost : ∀ w signalled, (w, signalled) ∈ c.timeouts → signalled = false) :
    SdioInv (c.received w err status) := by
  obtain ⟨hos, hevent, hthread, hrequest, hpc, -, hun, hpost, htimeouts, hlog, hcon⟩ :=
    received_same c w err status
  have hpc' : ∀ v, (c.received w err status).pc ≠ .waiting v := fun v => by
    rw [hpc]
    exact c.request.after_ne_waiting w v
  have hlist : (c.received w err status).suspended = c.suspended := by
    simp only [suspended, hos, hevent]
  have hexp : (c.received w err status).expected = (c.request.after w).nextWait := by
    rw [expected_of_ne hpc', hpc]
  refine ⟨by rwa [hos], by rwa [hlist, hthread], fun hm => ?_, fun v hv => absurd hv (hpc' v),
    fun v hv => absurd hv (hpc' v), by rwa [hevent, hun], by rwa [hun, hexp], hcon henabled,
    by rwa [hpost, hun, hexp, hrequest], fun v taken hm => ?_, by rwa [htimeouts]⟩
  · rw [hlist, hthread] at hm
    exact absurd hm hnot
  · rw [hlog] at hm
    split at hm
    · next herr =>
      rcases List.mem_cons.mp hm with hm | hm
      · obtain ⟨rfl, rfl⟩ := Prod.mk.inj hm
        exact htaken herr
      · exact hsatisfied v taken hm
    · exact hsatisfied v taken hm

theorem SdioInv.recv (h : SdioInv c) (hs : c.recv = some c') : SdioInv c' := by
  unfold Sdio.recv at hs
  split at hs
  · next w hpc =>
    have hne : ∀ v, c.pc ≠ .waiting v := by simp [hpc]
    have hexp : c.expected = some w := by rw [expected_of_ne hne, hpc]; rfl
    have hnot : c.thread ∉ c.suspended := fun hm => by
      obtain ⟨v, hv, -⟩ := h.waiting hm
      exact hne v hv
    split at hs
    · next hrun =>
      obtain ⟨⟨os, event, outcome, status⟩, hr, rfl⟩ := Option.map_eq_some_iff.mp hs
      by_cases hset : c.event.set &&& SDIO_WAIT = 0
      · have hunread : c.unread = [] := by
          by_contra hne
          exact h.bits.mpr hne hset
        obtain ⟨hw, hrest⟩ := Event.recv_waits h.inv hrun (by decide) (by decide) hset hr
        obtain ⟨rfl, hreturn⟩ := Prod.mk.inj hrest
        obtain ⟨rfl, rfl⟩ := Prod.mk.inj hreturn
        have hempty : c.suspended = [] := by
          rw [List.eq_nil_iff_forall_not_mem]
          exact fun u hu => hnot (h.alone u hu ▸ hu)
        have hlist : ∀ u, u ∈ os.suspend_thread c.event.suspend_thread ↔ u = c.thread := fun u => by
          have := hw.mem u
          simpa [show c.os.suspend_thread c.event.suspend_thread = [] from hempty] using this
        have hin : c.thread ∈ os.suspend_thread c.event.suspend_thread := (hlist _).mpr rfl
        have hexp' : Sdio.expected { c with os := os, pc := .waiting w } = c.expected := by
          rw [hexp, expected_waiting (w := w) rfl]
          exact if_pos hin
        exact ⟨hw.inv, fun u hu => (hlist u).mp hu,
          fun _ => ⟨w, rfl, hunread, hw.event_set, hw.event_info, hw.error⟩,
          fun v hv hm => absurd hin hm, fun v hv _ => hin, h.bits, hexp' ▸ h.unread, h.enabled,
          hexp' ▸ h.posted, h.satisfied, h.lost⟩
      · obtain ⟨hinv, hlist, hrest⟩ := Event.recv_takes h.inv hrun hset hr
        obtain ⟨rfl, hreturn⟩ := Prod.mk.inj hrest
        obtain ⟨rfl, rfl⟩ := Prod.mk.inj hreturn
        obtain ⟨v, hunread, hv⟩ := h.unread.resolve_left (h.bits.mp hset)
        rw [hexp] at hv
        obtain rfl := Option.some.inj hv
        have hlist : Sdio.suspended { c with os := os } = c.suspended := hlist _
        refine received_inv (c := { c with
          os := os, event := { c.event with set := c.event.set &&& ~~~SDIO_WAIT }
          taken := c.unread, unread := [] }) hinv (hlist ▸ h.alone) (hlist ▸ hnot) ?_ (Or.inl rfl)
          h.enabled (fun v hv => Or.inr fun u hu => ?_) (fun _ => hunread) h.satisfied h.lost
        · simp [BitVec.and_assoc]
        · have hnext := SdioRequest.after_next hu
          rcases h.posted v hv with hv | hv
          · rw [hunread, List.mem_singleton] at hv
            exact hv ▸ hnext
          · exact Nat.lt_trans (hv w hexp) hnext
    · cases hs
  · cases hs

theorem SdioInv.recvResumed (h : SdioInv c) (hs : c.recvResumed = some c') : SdioInv c' := by
  unfold Sdio.recvResumed at hs
  split at hs
  · next w hpc =>
    split at hs
    · next hrun =>
      have hreturn := Event.recvResumed_err (s := c.os) (t := c.thread)
      generalize Event.recvResumed c.os c.thread = result at hs hreturn
      obtain ⟨err, status⟩ := result
      obtain rfl := Option.some.inj hs
      have hnot : c.thread ∉ c.suspended := hrun.not_waiting h.inv _
      have hexp : c.expected = (c.request.after w).nextWait := by
        rw [expected_waiting hpc, if_neg hnot]
      refine received_inv h.inv h.alone hnot h.bits (hexp ▸ h.unread) h.enabled (hexp ▸ h.posted)
        (fun herr => h.woken w hpc hnot (hreturn ▸ herr)) h.satisfied h.lost
    · cases hs
  · cases hs

theorem SdioInv.send (h : SdioInv c) (hs : c.send = some c') : SdioInv c' := by
  unfold Sdio.send at hs
  split at hs
  · next w hpc =>
    split at hs
    · obtain rfl := Option.some.inj hs
      exact h.moves (by simp [hpc]) (by simp) (by rw [hpc]; rfl)
    · cases hs
  · cases hs

theorem SdioInv.program (h : SdioInv c) (hs : c.program = some c') : SdioInv c' := by
  unfold Sdio.program at hs
  split at hs
  · next i hpc =>
    split at hs
    · obtain rfl := Option.some.inj hs
      exact h.moves (by simp [hpc]) (by simp) (by rw [hpc]; rfl)
    · cases hs
  · cases hs

/-- The controller writes its own bits of `SDxCON` only. -/
theorem SdioInv.controller {SDxCON : BitVec 32} {owed flagged : List Completion} (h : SdioInv c)
    (hcon : SDxCON.getLsbD 0 = true) :
    SdioInv { c with SDxCON := SDxCON, owed := owed, flagged := flagged } :=
  ⟨h.inv, h.alone, h.waiting, h.woken, h.timer, h.bits, h.unread, hcon, h.posted, h.satisfied, h.lost⟩

theorem status_enabled {con : BitVec 32} (hcon : con.getLsbD 0 = true) (status flag : BitVec 32) :
    (con &&& ~~~HW_SDIO_STATUS ||| status &&& HW_SDIO_STATUS ||| flag).getLsbD 0 = true := by
  simp [hcon, HW_SDIO_STATUS]

theorem SdioInv.signal {status : BitVec 32} (h : SdioInv c) (hs : c.signal w status = some c') :
    SdioInv c' := by
  unfold Sdio.signal at hs
  split at hs
  · obtain rfl := Option.some.inj hs
    exact h.controller (status_enabled h.enabled ..)
  · cases hs

theorem SdioInv.timeout (h : SdioInv c) (hapart : c.Apart .timeout) (hs : c.timeout = some c') :
    SdioInv c' := by
  unfold Sdio.timeout at hs
  split at hs
  · next w hpc =>
    split at hs
    · next hact =>
      obtain ⟨os, hos, rfl⟩ := Option.map_eq_some_iff.mp hs
      have hin := h.timer w hpc hact
      have hto := timerExpires_timedOut h.inv hos
      obtain ⟨v, -, hunread, -⟩ := h.waiting hin
      have hexp : c.expected = some w := by rw [expected_waiting hpc, if_pos hin]
      have hlist : os.suspend_thread c.event.suspend_thread = c.suspended.filter (· ≠ c.thread) :=
        hto.suspend _
      have hnot : c.thread ∉ os.suspend_thread c.event.suspend_thread := by simp [hlist]
      have hsignalled : ¬(w ∈ c.posted ∨ w ∈ c.flagged) := by
        rintro (hm | hm)
        · rcases h.posted w hm with hm | hm
          · simp [hunread] at hm
          · exact Nat.lt_irrefl _ (hm w hexp)
        · exact hapart w hm hpc
      refine ⟨hto.inv, fun u hu => h.alone u ?_, fun hm => absurd hm hnot, fun u hu hm herr => ?_,
        fun u hu ht => ?_, h.bits, Or.inl hunread, h.enabled, fun v hv => Or.inr fun u hu => ?_,
        h.satisfied, fun u signalled hm => ?_⟩
      · rw [suspended, hlist] at hu
        exact List.mem_of_mem_filter hu
      · have herr : (os.threads c.thread).error = RT_EOK := herr
        rw [hto.error] at herr
        cases herr
      · have ht : (os.threads c.thread).thread_timer.activated = true := ht
        rw [hto.timer] at ht
        cases ht
      · have hexp' := expected_waiting (c := { c with
          os := os, timeouts := (w, decide (w ∈ c.posted ∨ w ∈ c.flagged)) :: c.timeouts }) hpc
        have hu : (c.request.after w).nextWait = some u :=
          (if_neg hnot).symm.trans (hexp'.symm.trans hu)
        rcases h.posted v hv with hv | hv
        · simp [hunread] at hv
        · exact Nat.lt_trans (hv w hexp) (SdioRequest.after_next hu)
      · rcases List.mem_cons.mp hm with hm | hm
        · obtain ⟨-, rfl⟩ := Prod.mk.inj hm
          exact decide_eq_false hsignalled
        · exact h.lost u signalled hm
    · cases hs
  · cases hs

theorem SdioInv.irq (h : SdioInv c) (hapart : c.Apart .irq) (hs : c.irq = some c') : SdioInv c' := by
  unfold Sdio.irq at hs
  dsimp only at hs
  split at hs
  · next hcomplete =>
    obtain ⟨r, hr, rfl⟩ := Option.map_eq_some_iff.mp hs
    obtain ⟨hunread, hexp⟩ := hapart hcomplete
    obtain ⟨w, hexp, hflagged⟩ := Option.map_eq_some_iff.mp hexp
    have hcon : (c.SDxCON &&&
        ~~~(c.SDxCON &&& (HW_SDIO_CON_CFLAG ||| HW_SDIO_CON_DFLAG))).getLsbD 0 = true := by
      simp [h.enabled, HW_SDIO_CON_CFLAG, HW_SDIO_CON_DFLAG]
    have hbit : (c.SDxCON &&& SDIO_WAIT).getLsbD 0 = true := by
      simp [h.enabled, SDIO_WAIT, HW_SDIO_CON_DFLAG]
    have hset : c.SDxCON &&& SDIO_WAIT ≠ 0 := fun hzero => by simp [hzero] at hbit
    have hposted : ∀ next, c.request.place w < c.request.place next → ∀ v ∈ c.posted ++ c.flagged,
        c.request.place v < c.request.place next := by
      intro next hnext v hv
      rcases List.mem_append.mp hv with hv | hv
      · rcases h.posted v hv with hv | hv
        · simp [hunread] at hv
        · exact Nat.lt_trans (hv w hexp) hnext
      · rw [← hflagged, List.mem_singleton] at hv
        exact hv ▸ hnext
    by_cases hin : c.thread ∈ c.suspended
    · -- The thread is inside its wait, and is woken by what the interrupt posts.
      obtain ⟨v, hpc, -, hmask, hinfo, herr⟩ := h.waiting hin
      obtain rfl : v = w := by
        rw [expected_waiting hpc, if_pos hin] at hexp
        exact Option.some.inj hexp
      have hlist : c.suspended = [c.thread] := by
        have hnodup : c.suspended.Nodup := h.inv.suspend_nodup _
        rw [← List.perm_singleton, List.perm_ext_iff_of_nodup hnodup (List.nodup_singleton _)]
        exact fun u => ⟨fun hu => List.mem_singleton.mpr (h.alone u hu),
          fun hu => List.mem_singleton.mp hu ▸ hin⟩
      obtain ⟨hinv, hempty, herr', htimer, hname, hzero, hresumed⟩ :=
        Event.send_wakes h.inv hlist hmask hinfo hset hr
      have hempty : r.os.suspend_thread r.event.suspend_thread = [] := hname ▸ hempty
      have hnot : c.thread ∉ r.os.suspend_thread r.event.suspend_thread := by simp [hempty]
      rw [if_pos hresumed]
      refine ⟨hinv, fun u hu => ?_, fun hm => absurd hm hnot, fun u hu _ _ => ?_, fun u hu ht => ?_,
        by simp [hzero], Or.inl rfl, hcon, fun u hu => Or.inr fun next hnext => ?_, h.satisfied,
        h.lost⟩
      · have hu : u ∈ r.os.suspend_thread r.event.suspend_thread := hu
        simp [hempty] at hu
      · have hu : c.pc = .waiting u := hu
        rw [hpc] at hu
        obtain rfl := SdioPc.waiting.inj hu
        simp [hunread, ← hflagged]
      · have ht : (r.os.threads c.thread).thread_timer.activated = true := ht
        rw [htimer] at ht
        cases ht
      · have hnext : (c.request.after v).nextWait = some next :=
          (if_neg hnot).symm.trans ((expected_waiting (c := { c with
            os := r.os, event := r.event }) hpc).symm.trans hnext)
        exact hposted next (SdioRequest.after_next hnext) u hu
    · -- What the interrupt posts stays in the event for the wait to come.
      have hempty : c.suspended = [] := by
        rw [List.eq_nil_iff_forall_not_mem]
        exact fun u hu => hin (h.alone u hu ▸ hu)
      have hne : c.SDxCON ≠ 0 := fun hzero => by simp [hzero] at hbit
      rw [Event.send_stays hempty hne] at hr
      obtain rfl := Option.some.inj hr
      rw [if_neg (by simp)]
      have hexp' : Sdio.expected { c with
          event := { c.event with set := c.event.set ||| c.SDxCON } } = some w := hexp
      refine ⟨h.inv, h.alone, fun hm => absurd hm hin, h.woken, h.timer, ?_, Or.inr ⟨w, ?_, hexp'⟩,
        hcon, fun u hu => ?_, h.satisfied, h.lost⟩
      · refine iff_of_true (fun hzero => ?_) (by simp [← hflagged])
        have hbit' : ((c.event.set ||| c.SDxCON) &&& SDIO_WAIT).getLsbD 0 = true := by
          simp only [BitVec.getLsbD_and, BitVec.getLsbD_or, Bool.and_eq_true, Bool.or_eq_true] at hbit ⊢
          exact ⟨Or.inr hbit.1, hbit.2⟩
        rw [show (c.event.set ||| c.SDxCON) &&& SDIO_WAIT = 0 from hzero] at hbit'
        simp at hbit'
      · simp [hunread, ← hflagged]
      · rcases List.mem_append.mp hu with hu | hu
        · rcases h.posted u hu with hu | hu
          · simp [hunread] at hu
          · exact Or.inr hu
        · exact Or.inl (List.mem_append_right _ hu)
  · obtain rfl := Option.some.inj hs
    exact h

theorem SdioInv.step {l : SdioStep} (h : SdioInv c) (hapart : c.Apart l) (hs : c.step l = some c') :
    SdioInv c' := by
  cases l with
  | send => exact h.send hs
  | program => exact h.program hs
  | recv => exact h.recv hs
  | recvResumed => exact h.recvResumed hs
  | signal w status => exact h.signal hs
  | status status =>
    obtain rfl := Option.some.inj hs
    refine h.controller ?_
    simpa using status_enabled h.enabled status 0
  | irq => exact h.irq hapart hs
  | timeout => exact h.timeout hapart hs
  | schedule =>
    obtain ⟨os, hos, rfl⟩ := Option.map_eq_some_iff.mp hs
    exact h.same (rt_schedule_elsewhere h.inv hos)
  | other os => cases hs

theorem reachable_sdioInv (hr : (sdioMachine.restrict Apart).Reachable c) : SdioInv c := by
  apply hr.invariant
  · exact fun c h => h.sdioInv
  · rintro c l c' - h ⟨hapart, hs | ⟨os, -, rfl, he⟩⟩
    · exact h.step hapart hs
    · exact h.same he

end Sdio

theorem sdio_completions {c : Sdio} (hr : (sdioMachine.restrict Sdio.Apart).Reachable c) :
    SdioContract c :=
  ⟨(Sdio.reachable_sdioInv hr).satisfied, (Sdio.reachable_sdioInv hr).lost⟩

/-- A read of two blocks with a stop command, by thread 1. -/
def readTwo (os : Rtos) : Sdio :=
  { os := os, event := ⟨0, 0, .fifo⟩, thread := 1
    request := ⟨some (.read, 2), true, by simp⟩
    SDxCON := 0x31, cmd_err := 0, stop_err := 0, pc := .send .command
    owed := [], flagged := [], posted := [], unread := [], taken := [], log := [], timeouts := [] }

theorem readTwo_fresh {os : Rtos} (h : Inv os) (hlist : os.suspend_thread 0 = []) :
    (readTwo os).Fresh :=
  ⟨h, hlist, by simp [readTwo], by simp [readTwo],
    by simp [readTwo, HW_SDIO_CON_CFLAG, HW_SDIO_CON_DFLAG], rfl, ⟨rfl, rfl, rfl, rfl, rfl⟩, rfl, rfl⟩

/-- The thread takes a step that keeps the completions apart. -/
def Sdio.stepApart (c : Sdio) (l : SdioStep) : Option Sdio := if c.Apart l then c.step l else none

/-- The command, the two blocks and the stop command, each waited for in its turn. -/
def inTurn : List SdioStep :=
  [.send, .recv, .signal .command 0, .irq, .schedule, .signal (.block 0) 0, .irq, .recvResumed, .recv,
    .program, .recv, .signal (.block 1) 0, .irq, .schedule, .recvResumed, .send, .signal .stop 0,
    .irq, .recv]

theorem sdio_completions_read : ∃ os, startedThreads = some os ∧
    ∃ c, Machine.runs Sdio.stepApart (readTwo os) inTurn = some c ∧
      c.pc = .done ∧ c.log.map Prod.fst = [.stop, .block 1, .block 0, .command] ∧
        SdioContract c := by
  have hrun : ∃ os, startedThreads = some os ∧ os.suspend_thread 0 = [] ∧
      ∃ c, Machine.runs Sdio.stepApart (readTwo os) inTurn = some c ∧
        c.pc = .done ∧ c.log.map Prod.fst = [.stop, .block 1, .block 0, .command] := by
    decide +kernel
  obtain ⟨os, hos, hlist, c, hc, hpc, hlog⟩ := hrun
  refine ⟨os, hos, c, hc, hpc, hlog, sdio_completions ?_⟩
  refine (Machine.Reachable.start (readTwo_fresh (startedThreads_inv hos) hlist)).runs
    (fun c l c' hs => ?_) hc
  unfold Sdio.stepApart at hs
  split at hs
  · exact ⟨‹_›, Or.inl hs⟩
  · cases hs

/-- Before the thread calls `rt_event_recv`, the command and the first block complete. -/
def merged : List SdioStep :=
  [.send, .signal .command 0, .irq, .signal (.block 0) 0, .irq, .recv, .recv, .schedule, .timeout,
    .schedule, .recvResumed]

theorem sdio_completions_merged : ∃ c, sdioMachine.Reachable c ∧
    c.log = [(.command, [.command, .block 0])] ∧ c.timeouts = [(.block 0, true)] ∧
      c.cmd_err = -RT_ETIMEOUT ∧ ¬SdioContract c := by
  have hrun : ∃ os, startedThreads = some os ∧ os.suspend_thread 0 = [] ∧
      ∃ c, Machine.runs Sdio.step (readTwo os) merged = some c ∧
        c.log = [(.command, [.command, .block 0])] ∧ c.timeouts = [(.block 0, true)] ∧
          c.cmd_err = -RT_ETIMEOUT := by
    decide +kernel
  obtain ⟨os, hos, hlist, c, hc, hlog, htimeouts, herr⟩ := hrun
  refine ⟨c, ?_, hlog, htimeouts, herr, fun hcontract => ?_⟩
  · exact (Machine.Reachable.start (readTwo_fresh (startedThreads_inv hos) hlist)).runs
      (fun _ _ _ hs => Or.inl hs) hc
  · have := hcontract.satisfied .command [.command, .block 0] (by simp [hlog])
    simp at this

end Ab32Vg1.Drivers
