import Nuvix.Fs.PipeInvariant

/-!
# Every step keeps the invariant of a pipe

One lemma for the steps of `pipe_read`, one for those of `pipe_write`, and the two steps
of each that touch the ring on their own: the copy, and the move of the counter.
-/

namespace Nuvix.Pipe

open Transition RingBuffer Function

variable {N : ℕ} {s s' : State N} {i : Fin N} {miss : ℕ → ℕ → ℕ} {file : End} {vec : List Iovec}
  {count : ℕ} {nonblock : Bool} {copy : Copied} {copied : ℕ}

/-! ### Reading -/

section Read

variable {r : ReadCall} {pc : ReadPc}

/-- The bytes a reader copies are the next ones of the stream. -/
theorem Inv.readCopy (h : Inv s) (htask : s.task i = .read r .copy) (hcount : count ≠ 0)
    (hused : count ≤ s.pipe.used) (hend : s.pipe.tail % bufSize + count ≤ bufSize)
    (hcopy : copy = copyKiov miss count r.iov) :
    Inv { s with
      task := update s.task i
        (.read { r with iov := copy.iov } (.commit count copy.moved.length))
      log := { s.log with
        delivered := s.log.delivered ++
          load s.pipe.buffer (s.pipe.tail % bufSize) copy.moved.length } } := by
  obtain ⟨hiov, -⟩ := h.phaseOk htask
  have hlen : copy.moved.length + copy.missing ≤ min count r.iov.count :=
    hcopy ▸ copyKiov_length_le count hiov
  refine h.moveOwner htask .read rfl rfl ?_ h.fresh
    ⟨hcopy ▸ hiov.copyKiov count, by omega, by omega, by omega⟩ h.stream
    (fun hdrained => hdrained) fun _ _ _ _ => rfl
  -- Before the step nothing is in flight, so the stream is delivered up to the tail.
  have hring := h.ring
  rw [show s.inflight = 0 from h.inflight_eq htask rfl] at hring
  obtain ⟨popped, hholds, hle, hdelivered⟩ := hring
  have heq := used_eq hholds
  have hroom : popped + copy.moved.length ≤ s.log.written.length := by omega
  refine ⟨popped, hholds, hroom, ?_⟩
  have hread := hholds.read bufSize_dvd (n := copy.moved.length) (by simpa using hroom)
    (by omega)
  dsimp only [Phase.inflight]
  rw [hdelivered, hread, Nat.add_zero, ← List.take_add]

/-- Moving the tail gives up what was delivered. -/
theorem Inv.readCommit (h : Inv s) (htask : s.task i = .read r (.commit count copied)) :
    Inv { s with
      pipe := { s.pipe with tail := (s.pipe.tail + copied) % uintSize }
      task := update s.task i
        (.read { r with done := r.done + copied, fault := copied ≠ count }
          (if copied ≠ count then .unlock else .copy)) } := by
  obtain ⟨hiov, hcopied, hcount, hused⟩ := h.phaseOk htask
  have hne : s.pipe.head ≠ s.pipe.tail := by
    intro heq
    have := h.ring.used_eq_zero_iff.mpr heq
    omega
  have hinflight : s.inflight = copied := h.inflight_eq htask rfl
  obtain ⟨popped, hholds, hle, hdelivered⟩ := h.ring
  rw [hinflight] at hle hdelivered
  have hpop := hholds.pop (n := copied) (by simpa using hle)
  by_cases hshort : copied = count
  · rw [if_neg (not_not.mpr hshort)]
    refine h.moveOwner htask .read rfl rfl ⟨popped + copied, hpop, hle, hdelivered⟩ h.fresh
      ⟨hiov, ?_⟩ h.stream (fun hd => absurd hd.1 hne) fun _ _ _ _ => rfl
    intro hdone
    dsimp only at hdone
    omega
  · rw [if_pos hshort]
    refine h.moveOwner htask .read rfl rfl ⟨popped + copied, hpop, hle, hdelivered⟩ h.fresh
      ⟨hiov, ?_⟩ h.stream (fun hd => absurd hd.1 hne) fun _ _ _ _ => rfl
    intro _ hfault
    simp [hshort] at hfault

theorem Inv.readStep (h : Inv s) (htask : s.task i = .read r pc)
    (hs : readStep s i miss r pc = some s') : Inv s' := by
  obtain ⟨hiov, hok⟩ := h.phaseOk htask
  cases pc with
  | lock | relock => exact h.acquire hs htask .read rfl ⟨hiov, hok⟩
  | check =>
    simp only [Pipe.readStep] at hs
    split_ifs at hs with hready hnonblock <;> cases hs
    · exact h.setTask htask .read rfl ⟨hiov, fun _ => ⟨hok.2, hready⟩⟩
    · exact h.setTask htask .read rfl ⟨hiov, hok⟩
    · exact h.setTask htask .read rfl ⟨hiov, hok⟩
  | unlockAgain =>
    cases hs
    exact h.unlock htask (.over rfl) rfl rfl nofun
  | unlockWait =>
    cases hs
    exact h.unlock htask .read rfl rfl ⟨hiov, hok⟩
  | wait =>
    obtain ⟨-, rfl⟩ := ite_eq_some.mp hs
    exact h.setTask htask .read rfl ⟨hiov, hok⟩
  | copy =>
    simp only [Pipe.readStep] at hs
    split_ifs at hs with hmore <;> cases hs
    · have hused : s.pipe.used ≠ 0 := fun h0 => hmore.2 (h.ring.used_eq_zero_iff.mp h0)
      have hlt : s.pipe.tail % bufSize < bufSize := Nat.mod_lt _ (by decide)
      generalize hroom : bufSize - s.pipe.tail % bufSize = room
      refine h.readCopy htask ?_ ((min_le_left _ _).trans (min_le_left _ _)) ?_ rfl
      · simp only [ne_eq, Nat.min_eq_zero_iff]
        omega
      · have := (min_le_left (min s.pipe.used room) r.iov.count).trans (min_le_right _ _)
        omega
    · refine h.setTask htask .read rfl ⟨hiov, fun hdone _ => ?_⟩
      obtain ⟨hcount, hready⟩ := hok hdone
      have heq : s.pipe.head = s.pipe.tail := by
        by_contra hne
        exact hmore ⟨hcount, hne⟩
      have hor := of_decide_eq_true hready
      exact ⟨heq, hor.resolve_left (not_not.mpr heq)⟩
  | commit count copied =>
    cases hs
    exact h.readCommit htask
  | unlock =>
    cases hs
    refine h.unlock htask (.over rfl) rfl rfl fun hret => ?_
    simp only [doneOr] at hret
    split_ifs at hret with hdone hfault
    · exact absurd (Except.ok.inj hret) hdone
    · exact hok (not_not.mp hdone) (by simpa using hfault)

theorem Inv.readInterrupt (h : Inv s) (htask : s.task i = .read r pc)
    (hs : readInterrupt s i pc = some s') : Inv s' := by
  cases pc with
  | lock | relock =>
    simp only [Pipe.readInterrupt, State.interruptLock, Option.ite_none_left_eq_some,
      Option.some_inj] at hs
    obtain ⟨-, rfl⟩ := hs
    exact h.setTask htask (.over rfl) rfl nofun
  | wait =>
    simp only [Pipe.readInterrupt, Option.ite_none_left_eq_some, Option.some_inj] at hs
    obtain ⟨-, rfl⟩ := hs
    exact h.setTask htask (.over rfl) rfl nofun
  | _ => exact nomatch hs

end Read

/-! ### Writing -/

section Write

variable {w : WriteCall} {pc : WritePc}

/-- The bytes copied go into free slots, where no reader looks. -/
theorem Inv.writeCopy (h : Inv s) {offset : ℕ} (htask : s.task i = .write w (.copy offset count))
    (hcopy : copy = copyKiov miss count w.iov) :
    Inv { s with
      pipe := { s.pipe with
        buffer := store s.pipe.buffer offset
          (copy.moved.map w.data ++ List.replicate copy.missing 0) }
      task := update s.task i
        (.write { w with iov := copy.iov } (.commit count copy.moved.length)) } := by
  obtain ⟨hw, rfl, hspace, hend, hatomic⟩ := h.phaseOk htask
  change w.Ok s.log.written 0 at hw
  have hlen : copy.moved.length + copy.missing ≤ min count w.iov.count :=
    hcopy ▸ copyKiov_length_le count hw.iov
  have hok : copy.iov.Ok := hcopy ▸ hw.iov.copyKiov count
  have haddrs : copy.moved ++ copy.iov.addrs = w.buf.drop w.done := by
    rw [hcopy, copyKiov_addrs count hw.iov]
    exact hw.rest
  have hsplit := congrArg List.length haddrs
  rw [List.length_append, List.length_drop] at hsplit
  have hmoved : copy.moved = (w.buf.drop w.done).take copy.moved.length := by
    rw [← haddrs, List.take_left]
  have hrest : copy.iov.addrs = w.buf.drop (w.done + copy.moved.length) := by
    rw [← List.drop_drop, ← haddrs, List.drop_left]
  have hcount : w.iov.count = copy.moved.length + copy.iov.count := by
    rw [hw.iov, hok, hw.rest, Nat.add_zero, ← haddrs, List.length_append]
  have hdone := hw.done
  refine h.moveOwner htask (.of_write rfl rfl) rfl rfl ?_ h.fresh
    ⟨⟨hok, hrest, hw.total, ?_, hw.appended⟩, ?_⟩ h.stream
    (fun hdrained => hdrained) fun _ _ _ _ => rfl
  · have hused := h.ring.used_le
    have hroom := h.ring.space_eq
    have hring := h.ring
    rw [show s.inflight = 0 from h.inflight_eq htask rfl] at hring
    obtain ⟨popped, hholds, hle, hdelivered⟩ := hring
    have heq := used_eq hholds
    refine ⟨popped, hholds.store bufSize_dvd ?_ ?_, hle, hdelivered⟩
    · simp only [List.length_append, List.length_map, List.length_replicate]
      omega
    · simp only [List.length_append, List.length_map, List.length_replicate]
      omega
  · change w.done + copy.moved.length ≤ w.buf.length
    omega
  · have hle : copy.moved.length ≤ s.pipe.space := by omega
    refine ⟨hle, by dsimp only; omega, ?_, fun ha => ⟨(hatomic ha).1, ?_⟩⟩
    · have hload := load_store s.pipe.buffer (s.pipe.head % bufSize) (copy.moved.map w.data)
        (List.replicate copy.missing 0)
      rw [List.length_map] at hload
      rwa [← hmoved]
    · have hfits : w.iov.count ≤ s.pipe.space := (hatomic ha).2
      change copy.iov.count + copy.moved.length ≤ s.pipe.space
      omega

/-- Moving the head appends the bytes that were copied. -/
theorem Inv.writeCommit (h : Inv s) (htask : s.task i = .write w (.commit count copied)) :
    Inv { s with
      pipe := { s.pipe with head := (s.pipe.head + copied) % uintSize }
      task := update s.task i (.write { w with done := w.done + copied }
        (if copied ≠ count then .unlockFault else .test))
      log := { s.log with
        written := s.log.written ++
          (load s.pipe.buffer (s.pipe.head % bufSize) copied).map fun b => (w.id, b) } } := by
  obtain ⟨hw, hspace, hend, hload, hatomic⟩ := h.phaseOk htask
  change w.Ok s.log.written copied at hw
  have hwriting : (s.task i).writing = some w := by rw [htask]; rfl
  obtain ⟨hcalls, hsource⟩ := h.id i w hwriting
  have hdone := hw.done
  generalize hxs : load s.pipe.buffer (s.pipe.head % bufSize) copied = xs at hload
  have hlen : xs.length = copied := by
    rw [← hxs]
    simp [load]
  have hused := h.ring.used_le
  have hroom := h.ring.space_eq
  have hring := h.ring
  rw [show s.inflight = 0 from h.inflight_eq htask rfl] at hring
  obtain ⟨popped, hholds, hle, hdelivered⟩ := hring
  have heq := used_eq hholds
  have hpush : Holds bufSize uintSize s.pipe.buffer ((s.pipe.head + xs.length) % uintSize)
      s.pipe.tail (s.log.written.map Prod.snd ++ xs) popped :=
    hholds.push bufSize_dvd (by rw [List.length_map]; omega) (by omega) (by rw [hlen, hxs])
  have hsnd : (s.log.written ++ xs.map fun b => (w.id, b)).map Prod.snd =
      s.log.written.map Prod.snd ++ xs := by
    simp [Function.comp_def]
  rw [← hsnd, hlen] at hpush
  have hring' : RingOk { s.pipe with head := (s.pipe.head + copied) % uintSize }
      { s.log with written := s.log.written ++ xs.map fun b => (w.id, b) } 0 := by
    refine ⟨popped, hpush, ?_, ?_⟩
    · dsimp only
      rw [List.length_append]
      omega
    · dsimp only
      rw [hsnd, hdelivered, List.take_append_of_le_length (by rw [List.length_map]; omega)]
  have happended : bytesOf w.id (s.log.written ++ xs.map fun b => (w.id, b)) =
      (w.buf.map w.data).take (w.done + copied) := by
    rw [bytesOf_append_self, hw.appended, hload, List.take_add, List.map_take, List.map_drop]
  have hok : { w with done := w.done + copied }.Ok
      (s.log.written ++ xs.map fun b => (w.id, b)) 0 :=
    ⟨hw.iov, hw.rest, hw.total, hdone, happended⟩
  refine h.moveOwner htask (.of_write rfl rfl) (by split_ifs <;> rfl) rfl ?_ ?_ ?_ ?_ ?_ ?_
  · split_ifs <;> exact hring'
  · intro e he
    rcases List.mem_append.mp he with he | he
    · exact h.fresh e he
    · obtain ⟨b, -, rfl⟩ := List.mem_map.mp he
      exact hcalls
  · split_ifs with hshort
    · exact ⟨hok, trivial⟩
    · refine ⟨hok, fun ha => ⟨(hatomic ha).1.append xs, fun _ => ?_⟩⟩
      have hroom' := hring'.space_eq
      have hfits := (hatomic ha).2
      rw [Pipe.used, hpush.sub_eq bufSize_lt, hsnd, List.length_append, List.length_map] at hroom'
      rw [hroom']
      dsimp only
      omega
  · intro c
    rcases eq_or_ne c w.id with rfl | hne
    · refine ⟨?_, fun hc => ?_⟩
      · change bytesOf w.id _ <+: s.log.source w.id
        rw [happended, hsource]
        exact List.take_prefix _ _
      · have ha : w.atomic = true := by
          change (s.log.source w.id).length ≤ bufSize at hc
          rw [hsource, List.length_map, ← hw.total] at hc
          exact decide_eq_true hc
        exact ((hatomic ha).1.append xs).contiguous
    · refine ⟨?_, fun hc => ((h.stream c).2 hc).append_of_ne hne xs⟩
      dsimp only
      rw [bytesOf_append_of_ne hne]
      exact (h.stream c).1
  · intro hdrained
    have hopen := h.file i .writer (by rw [htask]; rfl)
    have hwriters := h.writers
    rw [hopen, if_pos rfl, hdrained.2] at hwriters
    exact absurd hwriters (by decide)
  · intro j hne v hv
    apply bytesOf_append_of_ne
    intro hid
    exact hne (h.unique j i v w hv hwriting hid)

theorem Inv.writeStep (h : Inv s) (htask : s.task i = .write w pc)
    (hs : writeStep s i miss w pc = some s') : Inv s' := by
  obtain ⟨hw, hok⟩ := h.phaseOk htask
  have htest : w.Ok s.log.written 0 → (w.atomic → w.done = 0) →
      s.acquire i (.write w .test) = some s' → Inv s' := by
    intro hw' hdone hs
    refine h.acquire hs htask (.of_write rfl rfl) rfl
      ⟨hw', fun ha => ⟨?_, fun hne => absurd (hdone ha) hne⟩⟩
    apply atEnd_of_bytesOf_eq_nil
    rw [hw'.appended, hdone ha, List.take_zero]
  cases pc with
  | lock => exact htest hw (fun _ => hok) hs
  | relock => exact htest hw hok hs
  | test =>
    simp only [Pipe.writeStep] at hs
    split_ifs at hs with hcount hreaders hspace hnonblock <;> cases hs
    · exact h.setTask htask (.of_write rfl rfl) rfl ⟨hw, trivial⟩
    · exact h.setTask htask (.of_write rfl rfl) rfl ⟨hw, trivial⟩
    -- A write that fits and has begun has room for the rest of it.
    · refine h.setTask htask (.of_write rfl rfl) rfl ⟨hw, fun ha => ?_⟩
      by_contra hne
      have hfits := (hok ha).2 hne
      rw [WriteCall.need, if_pos ha] at hspace
      omega
    · refine h.setTask htask (.of_write rfl rfl) rfl ⟨hw, fun ha => ?_⟩
      by_contra hne
      have hfits := (hok ha).2 hne
      rw [WriteCall.need, if_pos ha] at hspace
      omega
    · have hlt : s.pipe.head % bufSize < bufSize := Nat.mod_lt _ (by decide)
      generalize hroom : bufSize - s.pipe.head % bufSize = room
      refine h.setTask htask (.of_write rfl rfl) rfl
        ⟨hw, rfl, (min_le_left _ _).trans (min_le_left _ _), ?_, ?_⟩
      · have := (min_le_left (min s.pipe.space room) w.iov.count).trans (min_le_right _ _)
        omega
      · intro ha
        rw [WriteCall.need, if_pos ha] at hspace
        exact ⟨(hok ha).1, by omega⟩
  | unlockPipe | unlockAgain | unlockFault | unlock =>
    cases hs
    exact h.unlock htask (.over rfl) rfl rfl trivial
  | unlockWait =>
    cases hs
    exact h.unlock htask (.of_write rfl rfl) rfl rfl ⟨hw, hok⟩
  | wait =>
    obtain ⟨-, rfl⟩ := ite_eq_some.mp hs
    exact h.setTask htask (.of_write rfl rfl) rfl ⟨hw, hok⟩
  | copy offset count =>
    cases hs
    exact h.writeCopy htask rfl
  | commit count copied =>
    cases hs
    exact h.writeCommit htask

theorem Inv.writeInterrupt (h : Inv s) (htask : s.task i = .write w pc)
    (hs : writeInterrupt s i w pc = some s') : Inv s' := by
  cases pc with
  | lock | relock =>
    simp only [Pipe.writeInterrupt, State.interruptLock, Option.ite_none_left_eq_some,
      Option.some_inj] at hs
    obtain ⟨-, rfl⟩ := hs
    exact h.setTask htask (.over rfl) rfl trivial
  | wait =>
    simp only [Pipe.writeInterrupt, Option.ite_none_left_eq_some, Option.some_inj] at hs
    obtain ⟨-, rfl⟩ := hs
    exact h.setTask htask (.over rfl) rfl trivial
  | _ => exact nomatch hs

end Write

/-! ### Calls and files -/

theorem Inv.beginRead (h : Inv s) (htask : s.task i = .idle) (hopen : s.isOpen file = true)
    (htotal : total vec ≠ 0) : Inv (s.setTask i (beginRead file nonblock vec)) := by
  unfold Pipe.beginRead
  split_ifs with hfile
  · have howner := h.owner i
    rw [htask] at howner
    refine h.moveLock ?_ howner (fun _ _ => .rfl) (inflight_update (by rw [htask]; rfl)) nofun
      ⟨ok_init vec, rfl, htotal⟩
    rintro _ ⟨⟩
    exact hfile ▸ hopen
  · exact h.setTask htask (.over rfl) rfl nofun

/-- A new call of `pipe_write` has a number of its own. -/
theorem Inv.beginWrite (h : Inv s) {data : ℕ → UInt8} (htask : s.task i = .idle)
    (hopen : s.isOpen file = true) :
    Inv { s with
      task := update s.task i (beginWrite s.log.calls file nonblock data vec)
      log := { s.log with
        calls := s.log.calls + 1
        source := update s.log.source s.log.calls
          ((Kiov.init vec (total vec)).addrs.map data) } } := by
  have hnone : bytesOf s.log.calls s.log.written = [] :=
    bytesOf_eq_nil fun e he => (h.fresh e he).ne
  -- The numbers of the calls in progress are smaller, so their buffers are as before.
  generalize hbuf : (Kiov.init vec (total vec)).addrs.map data = buf
  have hold : ∀ j w, (s.task j).writing = some w → w.id < s.log.calls + 1 ∧
      update s.log.source s.log.calls buf w.id = w.buf.map w.data := by
    intro j w hw
    obtain ⟨hlt, hsource⟩ := h.id j w hw
    exact ⟨by omega, by rw [update_of_ne hlt.ne, hsource]⟩
  have hnew : ∀ w, (Pipe.beginWrite s.log.calls file nonblock data vec).writing = some w →
      w.id = s.log.calls ∧ w.buf.map w.data = buf := by
    intro w hw
    unfold Pipe.beginWrite at hw
    dsimp only at hw
    split_ifs at hw
    · cases hw
      exact ⟨rfl, hbuf⟩
    · exact nomatch hw
  have hlocked : (Pipe.beginWrite s.log.calls file nonblock data vec).locked = false := by
    unfold Pipe.beginWrite
    dsimp only
    split_ifs <;> rfl
  have hidle : s.owner ≠ some i := by
    intro howner
    have := (h.owner i).mpr howner
    rw [htask] at this
    exact nomatch this
  constructor
  · exact h.readers
  · exact h.writers
  · apply (forall_update_iff s.task
      (fun _ ph => ∀ f, ph.file = some f → s.isOpen f = true)).mpr
    refine ⟨fun f hf => ?_, fun j _ => h.file j⟩
    unfold Pipe.beginWrite at hf
    dsimp only at hf
    split_ifs at hf with hfile
    · cases hf
      exact hfile ▸ hopen
    · exact nomatch hf
  · apply (forall_update_iff s.task
      (fun j ph => ph.locked = true ↔ s.owner = some j)).mpr
    refine ⟨?_, fun j _ => h.owner j⟩
    rw [hlocked]
    simp [hidle]
  · obtain ⟨popped, hholds, hle, hdelivered⟩ := h.ring
    have hsame : (Pipe.beginWrite s.log.calls file nonblock data vec).inflight =
        (s.task i).inflight := by
      rw [htask]
      unfold Pipe.beginWrite
      dsimp only
      split_ifs <;> rfl
    rw [← inflight_update hsame] at hle hdelivered
    exact ⟨popped, hholds, hle, hdelivered⟩
  · apply (forall_update_iff s.task (fun _ ph => ∀ w, ph.writing = some w →
      w.id < s.log.calls + 1 ∧
        update s.log.source s.log.calls buf w.id = w.buf.map w.data)).mpr
    refine ⟨fun w hw => ?_, fun j _ => hold j⟩
    obtain ⟨hid, hdata⟩ := hnew w hw
    rw [hid, hdata, update_self]
    exact ⟨Nat.lt_succ_self _, rfl⟩
  · intro j k w w' hw hw' hid
    dsimp only at hw hw'
    by_cases hj : j = i <;> by_cases hk : k = i
    · rw [hj, hk]
    · subst hj
      rw [update_self] at hw
      rw [update_of_ne hk] at hw'
      have := (h.id k w' hw').1
      have := (hnew w hw).1
      omega
    · subst hk
      rw [update_of_ne hj] at hw
      rw [update_self] at hw'
      have := (h.id j w hw).1
      have := (hnew w' hw').1
      omega
    · rw [update_of_ne hj] at hw
      rw [update_of_ne hk] at hw'
      exact h.unique j k w w' hw hw' hid
  · intro e he
    exact Nat.lt_succ_of_lt (h.fresh e he)
  · apply (forall_update_iff s.task (fun _ ph => PhaseOk s.pipe s.log.written ph)).mpr
    refine ⟨?_, fun j _ => h.phase j⟩
    unfold Pipe.beginWrite
    dsimp only
    split_ifs
    · have hiov := ok_init vec
      refine ⟨⟨hiov, by simp [WritePc.pending], hiov, Nat.zero_le _, ?_⟩, rfl⟩
      rwa [List.take_zero]
    · trivial
  · intro c
    rcases eq_or_ne c s.log.calls with rfl | hne
    · refine ⟨?_, fun _ => (atEnd_of_bytesOf_eq_nil hnone).contiguous⟩
      dsimp only
      rw [hnone]
      exact List.nil_prefix
    · dsimp only [Log.size]
      rw [update_of_ne hne]
      exact h.stream c

/-- A pipe with one end closed holds the same bytes. -/
structure Closed (p p' : Pipe) : Prop where
  buffer : p'.buffer = p.buffer
  head : p'.head = p.head
  tail : p'.tail = p.tail
  writers : p'.writers = p.writers ∨ p'.writers = 0

theorem Closed.used {p p' : Pipe} (h : Closed p p') : p'.used = p.used := by
  rw [Pipe.used, Pipe.used, h.head, h.tail]

theorem Closed.drained {p p' : Pipe} (h : Closed p p') (hd : p.Drained) : p'.Drained := by
  refine ⟨by rw [h.head, h.tail]; exact hd.1, ?_⟩
  rcases h.writers with hw | hw
  · rw [hw]
    exact hd.2
  · exact hw

theorem Closed.readable {p p' : Pipe} (h : Closed p p') (hr : p.readable = true) :
    p'.readable = true := by
  apply decide_eq_true
  rw [h.head, h.tail]
  rcases h.writers with hw | hw
  · rw [hw]
    exact of_decide_eq_true hr
  · exact .inr hw

theorem Closed.phaseOk {p p' : Pipe} (h : Closed p p') {written : List (ℕ × UInt8)} {ph : Phase}
    (hph : PhaseOk p written ph) : PhaseOk p' written ph := by
  have hspace : p'.space = p.space := by rw [Pipe.space, Pipe.space, h.used]
  cases ph with
  | idle => trivial
  | read r pc =>
    obtain ⟨hiov, hpc⟩ := hph
    refine ⟨hiov, ?_⟩
    cases pc with
    | copy => exact fun hdone => ⟨(hpc hdone).1, h.readable (hpc hdone).2⟩
    | commit count copied => exact ⟨hpc.1, hpc.2.1, by rw [h.used]; exact hpc.2.2⟩
    | unlock => exact fun hdone hfault => h.drained (hpc hdone hfault)
    | _ => exact hpc
  | write w pc =>
    obtain ⟨hw, hpc⟩ := hph
    refine ⟨hw, ?_⟩
    cases pc with
    | test =>
      intro ha
      rw [hspace]
      exact hpc ha
    | copy offset count =>
      unfold WritePcOk
      rwa [hspace, h.head]
    | commit count copied =>
      unfold WritePcOk
      rwa [hspace, h.head, h.buffer]
    | _ => exact hpc
  | readDone ret => exact fun hret => h.drained (hph hret)
  | writeDone w ret => trivial

theorem closed_release {p : Pipe} (hwriters : file = .writer → p.writers = 1) :
    Closed p (release p file) := by
  obtain ⟨buffer, head, tail, readers, writers⟩ := p
  cases file with
  | reader => exact ⟨rfl, rfl, rfl, .inl rfl⟩
  | writer =>
    obtain rfl : writers = 1 := hwriters rfl
    have hzero : sub uintSize 1 1 = 0 := by rw [sub, if_pos le_rfl]
    exact ⟨rfl, rfl, rfl, .inr hzero⟩

/-- An end is released when no call uses it. -/
theorem Inv.release (h : Inv s) (hopen : s.isOpen file = true)
    (hunused : ∀ i, (s.task i).file ≠ some file) :
    Inv { s with
      pipe := release s.pipe file
      isOpen := update s.isOpen file false } := by
  have hclosed : Closed s.pipe (Pipe.release s.pipe file) := by
    apply closed_release
    rintro rfl
    rw [h.writers, hopen, if_pos rfl]
  have hfile : ∀ i f, (s.task i).file = some f →
      update s.isOpen file false f = true := by
    intro i f hf
    have hne : f ≠ file := fun heq => hunused i (heq ▸ hf)
    rw [update_of_ne hne]
    exact h.file i f hf
  have hring : RingOk (Pipe.release s.pipe file) s.log s.inflight := by
    unfold RingOk
    rw [hclosed.buffer, hclosed.head, hclosed.tail]
    exact h.ring
  have hcounts : (Pipe.release s.pipe file).readers =
        (if update s.isOpen file false .reader then 1 else 0) ∧
      (Pipe.release s.pipe file).writers =
        (if update s.isOpen file false .writer then 1 else 0) := by
    have hreaders := h.readers
    have hwriters := h.writers
    cases file with
    | reader =>
      rw [hopen, if_pos rfl] at hreaders
      simp [Pipe.release, hreaders, hwriters, sub]
    | writer =>
      rw [hopen, if_pos rfl] at hwriters
      simp [Pipe.release, hreaders, hwriters, sub]
  exact ⟨hcounts.1, hcounts.2, hfile, h.owner, hring, h.id, h.unique, h.fresh,
    fun i => hclosed.phaseOk (h.phase i), h.stream⟩

/-! ### Runs -/

theorem inv_boot (buffer : ℕ → UInt8) : Inv (boot N buffer) where
  readers := rfl
  writers := rfl
  file := nofun
  owner := fun _ => ⟨nofun, nofun⟩
  ring := ⟨0, Holds.empty, Nat.le_refl _, rfl⟩
  id := nofun
  unique := nofun
  fresh := nofun
  phase := fun _ => trivial
  stream := fun _ => ⟨List.nil_prefix, fun _ => (atEnd_of_bytesOf_eq_nil rfl).contiguous⟩

theorem Inv.step {a : Action N} (h : Inv s) (hs : step s a = some s') : Inv s' := by
  cases a with
  | read i file nonblock vec =>
    cases htask : s.task i with
    | idle =>
      simp only [Pipe.step, htask, Option.ite_none_right_eq_some, Option.some_inj] at hs
      obtain ⟨⟨hopen, htotal⟩, rfl⟩ := hs
      exact h.beginRead htask hopen htotal
    | _ => simp [Pipe.step, htask] at hs
  | write i file nonblock data vec =>
    cases htask : s.task i with
    | idle =>
      simp only [Pipe.step, htask, Option.ite_none_right_eq_some, Option.some_inj] at hs
      obtain ⟨⟨hopen, -⟩, rfl⟩ := hs
      exact h.beginWrite htask hopen
    | _ => simp [Pipe.step, htask] at hs
  | run i miss =>
    cases htask : s.task i with
    | read r pc =>
      simp only [Pipe.step, htask] at hs
      exact h.readStep htask hs
    | write w pc =>
      simp only [Pipe.step, htask] at hs
      exact h.writeStep htask hs
    | _ => simp [Pipe.step, htask] at hs
  | interrupt i =>
    cases htask : s.task i with
    | read r pc =>
      simp only [Pipe.step, htask] at hs
      exact h.readInterrupt htask hs
    | write w pc =>
      simp only [Pipe.step, htask] at hs
      exact h.writeInterrupt htask hs
    | _ => simp [Pipe.step, htask] at hs
  | leave i =>
    cases htask : s.task i with
    | readDone ret | writeDone w ret =>
      simp only [Pipe.step, htask] at hs
      cases hs
      exact h.setTask htask (.over rfl) rfl trivial
    | _ => simp [Pipe.step, htask] at hs
  | release file =>
    obtain ⟨⟨hopen, hunused⟩, rfl⟩ := ite_eq_some.mp hs
    exact h.release hopen hunused

theorem inv_of_reachable {buffer : ℕ → UInt8}
    (h : Reachable (· = boot N buffer) (Graph step) s) : Inv s := by
  apply h.invariant
  · rintro _ rfl
    exact inv_boot buffer
  · intro s a s' hinv hs
    exact hinv.step hs

end Nuvix.Pipe
