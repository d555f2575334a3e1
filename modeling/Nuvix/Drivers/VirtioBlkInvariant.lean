import Nuvix.Drivers.VirtioBlk
import Nuvix.Drivers.VirtqueueInvariant

/-!
# Every caller gets the answer to its own request

A slot goes through six phases. From the moment it is submitted until its caller has consumed
the completion it belongs to one submission, and exactly one of the queue, a handler and the
completion has it. The phases say who may touch a slot, so that the handler's pointers, which
outlive the lock, never lead to a slot that is in use again.
-/

namespace Nuvix.VirtioBlk

open Transition Virtio Function

/-! ### The phases of a slot -/

/-- A submission: the caller, the call and the number it was given. -/
structure Sub where
  task : ℕ
  call : Call
  number : ℕ

/-- The phases of a slot: with nobody, with a caller that fills it in, in the queue, in the
list of a handler, signalled, and with the caller that has consumed the completion. -/
inductive Phase
  | free
  | preparing (t : ℕ)
  | queued (b : Sub)
  | collected (b : Sub) (h : ℕ)
  | ready (b : Sub)
  | taken (b : Sub)

namespace Phase

/-- The state field of a slot. -/
def state : Phase → RequestState
  | free => .free
  | preparing _ => .preparing
  | _ => .submitted

/-- The count of the completion of a slot. -/
def done : Phase → ℕ
  | ready _ => 1
  | _ => 0

/-- The submission that the slot is for. -/
def sub : Phase → Option Sub
  | free | preparing _ => none
  | queued b | collected b _ | ready b | taken b => some b

/-- The submission whose caller waits. -/
def waiting : Phase → Option Sub
  | queued b | collected b _ | ready b => some b
  | _ => none

/-- The submission whose result is in the slot. -/
def answered : Phase → Option Sub
  | collected b _ | ready b | taken b => some b
  | _ => none

/-- The caller that the slot is with. -/
def owner : Phase → Option ℕ
  | free => none
  | preparing t => some t
  | queued b | collected b _ | ready b | taken b => some b.task

variable {p : Phase} {b : Sub}

theorem sub_of_waiting (h : p.waiting = some b) : p.sub = some b := by
  cases p <;> first | exact h | cases h

theorem owner_of_sub (h : p.sub = some b) : p.owner = some b.task := by
  cases p <;> first | (cases h; rfl) | cases h

theorem eq_free_of_state (h : p.state = .free) : p = .free := by
  cases p <;> first | rfl | cases h

theorem eq_ready_of_done (h : p.done ≠ 0) : ∃ b, p = .ready b := by
  cases p <;> first | exact ⟨_, rfl⟩ | exact absurd rfl h

end Phase

/-! ### The invariant -/

section Invariant

variable (base : ℕ)

/-- The result `ret` belongs to the answer to submission `n`, which is `t`'s call `c`. -/
def Returns (s : State) (t : ℕ) (c : Call) (n : ℕ) (ret : Option Errno) : Prop :=
  s.subs[n]? = some (t, c) ∧ ∃ a, (n, a) ∈ s.answers ∧ a.header = c.header ∧
    outcome c.expectedWritten a.written a.status = some ret

/-- A slot has been filled in for the call `c`. -/
def Prepared (s : State) (i : ℕ) (c : Call) : Prop :=
  (s.slot i).expectedWritten = c.expectedWritten ∧ s.header (wireDma base i) = c.header

/-- A slot fits its phase. -/
structure SlotOk (s : State) (i : ℕ) (p : Phase) : Prop where
  state : (s.slot i).state = p.state
  done : (s.slot i).done = p.done
  prepared : ∀ b, p = .queued b → Prepared base s i b.call
  sub : ∀ b, p.sub = some b → s.subs[b.number]? = some (b.task, b.call)
  answered : ∀ b, p.answered = some b → Returns s b.task b.call b.number (s.slot i).result

/-- A caller fits the phase of its slot. -/
def TaskOk (s : State) (phase : ℕ → Phase) (t : ℕ) : Pc → Prop
  | .idle | .reserve _ => True
  | .mapPage _ i | .prepare _ i _ => i < blkSlots ∧ phase i = .preparing t
  | .deadline c i _ | .submit c i _ =>
    i < blkSlots ∧ phase i = .preparing t ∧ Prepared base s i c
  | .wait c i n => i < blkSlots ∧ (phase i).waiting = some ⟨t, c, n⟩
  | .collect c i n => i < blkSlots ∧ phase i = .taken ⟨t, c, n⟩
  | .release _ i none ret => i < blkSlots ∧ phase i = .preparing t ∧ ret ≠ none
  | .release c i (some n) ret =>
    i < blkSlots ∧ phase i = .taken ⟨t, c, n⟩ ∧ Returns s t c n ret
  | .returned _ none ret => ret ≠ none
  | .returned c (some n) ret => Returns s t c n ret

/-- The slots that a handler has collected are its own. -/
def HandlerOk (phase : ℕ → Phase) (h : ℕ) : Handler → Prop
  | .idle => True
  | .collecting l | .signalling l =>
    l.Nodup ∧ ∀ i ∈ l, i < blkSlots ∧ ∃ b, phase i = .collected b h

/-- A request in flight is that of a slot in the queue. -/
structure InFlight (s : State) (phase : ℕ → Phase) (r : Request) : Prop where
  lt : r.cookie < blkSlots
  queued : ∃ b data, phase r.cookie = .queued b ∧ s.number r.head = b.number ∧
    r.sg = b.call.bufs base r.cookie data

/-- What the device has handed back is the answer that was recorded. -/
def Used (s : State) (e : UsedElem) : Prop :=
  ∃ a, (s.number e.id, a) ∈ s.answers ∧ a.written = e.len ∧
    ∀ r ∈ s.q.flight, r.head = e.id →
      s.status (statusDma base r.cookie) = a.status ∧
      s.header (wireDma base r.cookie) = a.header

/-- The invariant: the queue is in order, and everything fits the phases of the slots. -/
structure Inv (s : State) (g : Ledger) (phase : ℕ → Phase) : Prop where
  queue : Ok 6 s.q g
  fault : s.fault = none ∨ s.fault = some .invalidStatus
  flight : ∀ r ∈ s.q.flight, InFlight base s phase r
  nodup : (s.q.flight.map Request.cookie).Nodup
  slot : ∀ i < blkSlots, SlotOk base s i (phase i)
  distinct : ∀ i < blkSlots, ∀ j < blkSlots, ∀ b b', (phase i).sub = some b →
    (phase j).sub = some b' → b.number = b'.number → i = j
  task : ∀ t, TaskOk base s phase t (s.task t)
  handler : ∀ h, HandlerOk phase h (s.handler h)
  used : ∀ e ∈ g.completed.drop g.taken, Used base s e
  pending : ∀ x ∈ g.published.drop g.fetched ++ s.q.devHeads, ∀ a, (s.number x, a) ∉ s.answers
  answers : (s.answers.map Prod.fst).Nodup
  answered : ∀ p ∈ s.answers, p.1 < s.subs.length

end Invariant

variable {base : ℕ} {s s' : State} {g : Ledger} {phase phase' : ℕ → Phase}
  {t i n h : ℕ} {c : Call} {pc : Pc} {ret : Option Errno} {p : Phase} {holder : Option ℕ}
  {x : Handler} {l : List ℕ} {data : ℕ} {q : System} {written j : ℕ} {vq : Virtqueue}

/-! ### What steps leave alone -/

/-- Submissions and answers are only added. -/
structure Grows (s s' : State) : Prop where
  subs : s.subs <+: s'.subs
  answers : s.answers ⊆ s'.answers

theorem Grows.sub (hgrows : Grows s s') {x : ℕ × Call} (hn : s.subs[n]? = some x) :
    s'.subs[n]? = some x := by
  obtain ⟨rest, hrest⟩ := hgrows.subs
  rwa [← hrest, List.getElem?_append_left (List.getElem?_eq_some_iff.mp hn).1]

theorem Returns.grows (hgrows : Grows s s') (h : Returns s t c n ret) : Returns s' t c n ret := by
  obtain ⟨hsub, a, ha, hrest⟩ := h
  exact ⟨hgrows.sub hsub, a, hgrows.answers ha, hrest⟩

/-- The phase of a slot stays, and so does what its caller has filled in; or the slot goes from
hand to hand while its caller waits. -/
def Stays (base : ℕ) (s s' : State) (i : ℕ) (p p' : Phase) : Prop :=
  (p' = p ∧ ∀ c, Prepared base s i c → Prepared base s' i c) ∨
    ∃ b, p.waiting = some b ∧ p'.waiting = some b

/-- A caller sees nothing of what happens to the slots of others. -/
theorem TaskOk.stays (hgrows : Grows s s')
    (hstays : ∀ i < blkSlots, (phase i).owner = some t → Stays base s s' i (phase i) (phase' i))
    (h : TaskOk base s phase t pc) : TaskOk base s' phase' t pc := by
  have hsame : ∀ {i p}, i < blkSlots → phase i = p → p.owner = some t → p.waiting = none →
      phase' i = p ∧ ∀ c, Prepared base s i c → Prepared base s' i c := by
    rintro i p hi rfl howner hnone
    rcases hstays i hi howner with hsame | ⟨b, hb, -⟩
    · exact hsame
    · rw [hnone] at hb
      cases hb
  cases pc with
  | idle | reserve c => exact trivial
  | mapPage c i | prepare c i data | collect c i n =>
    obtain ⟨hi, hp⟩ := h
    exact ⟨hi, (hsame hi hp rfl rfl).1⟩
  | deadline c i data | submit c i data =>
    obtain ⟨hi, hp, hc⟩ := h
    obtain ⟨heq, hprep⟩ := hsame hi hp rfl rfl
    exact ⟨hi, heq, hprep c hc⟩
  | wait c i n =>
    obtain ⟨hi, hp⟩ := h
    refine ⟨hi, ?_⟩
    rcases hstays i hi (Phase.owner_of_sub (Phase.sub_of_waiting hp)) with ⟨heq, -⟩ | ⟨b, hb, hb'⟩
    · rw [heq, hp]
    · rw [hb', ← hb, hp]
  | release c i n ret =>
    cases n with
    | none =>
      obtain ⟨hi, hp, hret⟩ := h
      exact ⟨hi, (hsame hi hp rfl rfl).1, hret⟩
    | some n =>
      obtain ⟨hi, hp, hret⟩ := h
      exact ⟨hi, (hsame hi hp rfl rfl).1, hret.grows hgrows⟩
  | returned c n ret =>
    cases n with
    | none => exact h
    | some n => exact Returns.grows hgrows h

theorem SlotOk.grows (hgrows : Grows s s') (hslot : s'.slot i = s.slot i)
    (hheader : s'.header (wireDma base i) = s.header (wireDma base i)) (h : SlotOk base s i p) :
    SlotOk base s' i p where
  state := by rw [hslot, h.state]
  done := by rw [hslot, h.done]
  prepared := fun b hb => by
    rw [Prepared, hslot, hheader]
    exact h.prepared b hb
  sub := fun b hb => hgrows.sub (h.sub b hb)
  answered := fun b hb => by
    rw [hslot]
    exact (h.answered b hb).grows hgrows

theorem HandlerOk.stays (hstays : ∀ i b, phase i = .collected b h → phase' i = .collected b h)
    (hx : HandlerOk phase h x) : HandlerOk phase' h x := by
  cases x with
  | idle => exact trivial
  | collecting l | signalling l =>
    refine ⟨hx.1, fun i hi => ⟨(hx.2 i hi).1, ?_⟩⟩
    obtain ⟨b, hb⟩ := (hx.2 i hi).2
    exact ⟨b, hstays i b hb⟩

/-- All slots but `i` are left alone. -/
structure Apart (base : ℕ) (s s' : State) (i : ℕ) : Prop where
  slot : ∀ j ≠ i, s'.slot j = s.slot j
  header : ∀ j ≠ i, s'.header (wireDma base j) = s.header (wireDma base j)
  status : ∀ j ≠ i, s'.status (statusDma base j) = s.status (statusDma base j)

theorem Apart.prepared (hapart : Apart base s s' i) (hj : j ≠ i) (h : Prepared base s j c) :
    Prepared base s' j c := by
  rwa [Prepared, hapart.slot j hj, hapart.header j hj]

/-- A caller whose slot is not `i` sees nothing of what happens to slot `i`. -/
theorem TaskOk.apart (hgrows : Grows s s') (hapart : Apart base s s' i)
    (howner : (phase i).owner ≠ some t) (h : TaskOk base s phase t pc) :
    TaskOk base s' (update phase i p) t pc := by
  refine h.stays hgrows fun j _ hj => .inl ?_
  have hne : j ≠ i := by
    rintro rfl
    exact howner hj
  exact ⟨update_of_ne hne _ _, fun c hc => hapart.prepared hne hc⟩

theorem HandlerOk.apart (hphase : ∀ b, phase i ≠ .collected b h) (hx : HandlerOk phase h x) :
    HandlerOk (update phase i p) h x := by
  refine hx.stays fun j b hj => ?_
  have hne : j ≠ i := by
    rintro rfl
    exact hphase b hj
  rw [update_of_ne hne, hj]

/-- Numbers stay distinct when a slot gets no new one. -/
theorem Inv.distinct_update (hinv : Inv base s g phase)
    (hsub : ∀ b, p.sub = some b → (phase i).sub = some b) :
    ∀ j < blkSlots, ∀ k < blkSlots, ∀ b b', (update phase i p j).sub = some b →
      (update phase i p k).sub = some b' → b.number = b'.number → j = k := by
  have hback : ∀ j b, (update phase i p j).sub = some b → (phase j).sub = some b := by
    intro j b hj
    by_cases hji : j = i
    · rw [hji, update_self] at hj
      rw [hji]
      exact hsub b hj
    · rwa [update_of_ne hji] at hj
  intro j hj k hk b b' hb hb'
  exact hinv.distinct j hj k hk b b' (hback j b hb) (hback k b' hb')

/-- The queue and the records are left alone. -/
structure Quiet (s s' : State) : Prop where
  q : s'.q = s.q
  fault : s'.fault = s.fault
  subs : s'.subs = s.subs
  number : s'.number = s.number
  answers : s'.answers = s.answers

theorem Quiet.grows (h : Quiet s s') : Grows s s' := by
  refine ⟨?_, ?_⟩
  · exact ⟨[], by rw [h.subs, List.append_nil]⟩
  · intro answer hmem
    rwa [h.answers]

section

variable (hinv : Inv base s g phase)
include hinv

/-- A step that leaves the queue, the records and the slots in the queue alone. -/
theorem Inv.quiet (hquiet : Quiet s s')
    (hqueued : ∀ r ∈ s.q.flight, phase' r.cookie = phase r.cookie ∧
      s'.status (statusDma base r.cookie) = s.status (statusDma base r.cookie) ∧
      s'.header (wireDma base r.cookie) = s.header (wireDma base r.cookie))
    (hslot : ∀ i < blkSlots, SlotOk base s' i (phase' i))
    (hdistinct : ∀ i < blkSlots, ∀ j < blkSlots, ∀ b b', (phase' i).sub = some b →
      (phase' j).sub = some b' → b.number = b'.number → i = j)
    (htask : ∀ t, TaskOk base s' phase' t (s'.task t))
    (hhandler : ∀ h, HandlerOk phase' h (s'.handler h)) : Inv base s' g phase' where
  queue := hquiet.q ▸ hinv.queue
  fault := hquiet.fault ▸ hinv.fault
  flight := by
    intro r hr
    rw [hquiet.q] at hr
    obtain ⟨b, data, hb, hnum, hsg⟩ := (hinv.flight r hr).queued
    exact ⟨(hinv.flight r hr).lt, b, data, (hqueued r hr).1.trans hb, hquiet.number ▸ hnum, hsg⟩
  nodup := hquiet.q ▸ hinv.nodup
  slot := hslot
  distinct := hdistinct
  task := htask
  handler := hhandler
  used := by
    intro e he
    obtain ⟨a, ha, hwritten, hall⟩ := hinv.used e he
    refine ⟨a, by rw [hquiet.number, hquiet.answers]; exact ha, hwritten, fun r hr hid => ?_⟩
    rw [hquiet.q] at hr
    rw [(hqueued r hr).2.1, (hqueued r hr).2.2]
    exact hall r hr hid
  pending := by
    rw [hquiet.q, hquiet.number, hquiet.answers]
    exact hinv.pending
  answers := hquiet.answers ▸ hinv.answers
  answered := by
    rw [hquiet.answers, hquiet.subs]
    exact hinv.answered

theorem Inv.taskOk (hpc : s.task t = pc) : TaskOk base s phase t pc := hpc ▸ hinv.task t

theorem Inv.handlerOk (hx : s.handler h = x) : HandlerOk phase h x := hx ▸ hinv.handler h

theorem Inv.slotOk (hi : i < blkSlots) (hp : phase i = p) : SlotOk base s i p := hp ▸ hinv.slot i hi

/-- A slot whose phase says so is not in the queue. -/
theorem Inv.not_flying (hphase : ∀ b, phase i ≠ .queued b) : ∀ r ∈ s.q.flight, r.cookie ≠ i := by
  rintro r hr rfl
  obtain ⟨b, -, hb, -⟩ := (hinv.flight r hr).queued
  exact hphase b hb

/-- A step that moves one slot, which is not in the queue. -/
theorem Inv.move (hquiet : Quiet s s') (hapart : Apart base s s' i)
    (hne : ∀ r ∈ s.q.flight, r.cookie ≠ i) (hslot : SlotOk base s' i p)
    (hsub : ∀ b, p.sub = some b → (phase i).sub = some b)
    (htask : ∀ t, TaskOk base s' (update phase i p) t (s'.task t))
    (hhandler : ∀ h, HandlerOk (update phase i p) h (s'.handler h)) :
    Inv base s' g (update phase i p) := by
  refine hinv.quiet hquiet (fun r hr => ?_) (fun j hj => ?_) (hinv.distinct_update hsub) htask
    hhandler
  · have hri := hne r hr
    exact ⟨update_of_ne hri _ _, hapart.status _ hri, hapart.header _ hri⟩
  · by_cases hji : j = i
    · subst hji
      rwa [update_self]
    · rw [update_of_ne hji]
      exact (hinv.slot j hj).grows hquiet.grows (hapart.slot j hji) (hapart.header j hji)

/-- A step that touches the place of one caller or handler only. -/
theorem Inv.places {task : ℕ → Pc} {handler : ℕ → Handler}
    (htask : ∀ t, TaskOk base s phase t (task t)) (hhandler : ∀ h, HandlerOk phase h (handler h)) :
    Inv base { s with task := task, handler := handler, holder := holder } g phase := by
  have hquiet : Quiet s { s with task := task, handler := handler, holder := holder } :=
    ⟨rfl, rfl, rfl, rfl, rfl⟩
  refine hinv.quiet hquiet (fun r _ => ⟨rfl, rfl, rfl⟩) (fun i hi => ?_) hinv.distinct
    (fun t => ?_) hhandler
  · exact (hinv.slot i hi).grows hquiet.grows rfl rfl
  · exact (htask t).stays hquiet.grows fun i _ _ => .inl ⟨rfl, fun c hc => hc⟩

theorem Inv.setTask (hpc : TaskOk base s phase t pc) : Inv base (s.setTask t pc) g phase :=
  hinv.places ((forall_update_iff s.task fun t pc => TaskOk base s phase t pc).mpr
    ⟨hpc, fun t' _ => hinv.task t'⟩) hinv.handler

theorem Inv.setHandler (hx : HandlerOk phase h x) :
    Inv base ({ s with holder := holder }.setHandler h x) g phase :=
  hinv.places hinv.task ((forall_update_iff s.handler fun h x => HandlerOk phase h x).mpr
    ⟨hx, fun h' _ => hinv.handler h'⟩)

/-! ### Steps of a caller -/

/-- What the callers see of a step on a slot that is with no other caller. -/
theorem Inv.tasks (hgrows : Grows s s') (hapart : Apart base s s' i)
    (howner : ∀ t' ≠ t, (phase i).owner ≠ some t') (htask : s'.task = update s.task t pc)
    (hpc : TaskOk base s' (update phase i p) t pc) (t' : ℕ) :
    TaskOk base s' (update phase i p) t' (s'.task t') := by
  rw [htask]
  exact (forall_update_iff s.task fun t' pc => TaskOk base s' (update phase i p) t' pc).mpr
    ⟨hpc, fun t' ht => (hinv.task t').apart hgrows hapart (howner t' ht)⟩ t'

theorem Inv.ownSlot (hquiet : Quiet s s') (hapart : Apart base s s' i)
    (howner : ∀ t' ≠ t, (phase i).owner ≠ some t')
    (hphase : ∀ b h, phase i ≠ .queued b ∧ phase i ≠ .collected b h)
    (htask : s'.task = update s.task t pc) (hhandler : s'.handler = s.handler)
    (hslot : SlotOk base s' i p) (hsub : ∀ b, p.sub = some b → (phase i).sub = some b)
    (hpc : TaskOk base s' (update phase i p) t pc) : Inv base s' g (update phase i p) := by
  refine hinv.move hquiet hapart (hinv.not_flying fun b => (hphase b 0).1) hslot hsub
    (hinv.tasks hquiet.grows hapart howner htask hpc) fun h => ?_
  rw [hhandler]
  exact (hinv.handler h).apart fun b => (hphase b h).2

omit hinv in
theorem apart_setSlot (base : ℕ) (s : State) (i : ℕ) (x : Slot) (t : ℕ) (pc : Pc) :
    Apart base s ((s.setSlot i x).setTask t pc) i where
  slot := fun _ hj => update_of_ne hj _ _
  header := fun _ _ => rfl
  status := fun _ _ => rfl

omit hinv in
theorem slot_setSlot (s : State) (i : ℕ) (x : Slot) (t : ℕ) (pc : Pc) :
    ((s.setSlot i x).setTask t pc).slot i = x := update_self _ _ _

omit hinv in
theorem quiet_setSlot (s : State) (i : ℕ) (x : Slot) (t : ℕ) (pc : Pc) :
    Quiet s ((s.setSlot i x).setTask t pc) := ⟨rfl, rfl, rfl, rfl, rfl⟩

/-- `reserve_request` finds a slot that is with nobody. -/
theorem Inv.reserve (hfind : reserveRequest s.slot = some i) :
    Inv base ((s.setSlot i { s.slot i with state := .preparing }).setTask t (.mapPage c i)) g
      (update phase i (.preparing t)) := by
  have hi : i < blkSlots := List.mem_range.mp (List.mem_of_find?_eq_some hfind)
  have hstate : (s.slot i).state = .free := by simpa using List.find?_some hfind
  have hfree : phase i = .free := Phase.eq_free_of_state ((hinv.slot i hi).state ▸ hstate)
  have hdone := (hinv.slotOk hi hfree).done
  refine hinv.ownSlot (quiet_setSlot _ _ _ _ _) (apart_setSlot _ _ _ _ _ _)
    (by simp [hfree, Phase.owner]) (by simp [hfree]) rfl rfl ?_ nofun ⟨hi, update_self _ _ _⟩
  exact ⟨by rw [slot_setSlot]; rfl, by rw [slot_setSlot]; exact hdone, nofun, nofun, nofun⟩

omit hinv in
/-- The addresses of different slots are different. -/
theorem wireDma_ne (hj : j ≠ i) : wireDma base j ≠ wireDma base i := by
  unfold wireDma
  omega

omit hinv in
theorem statusDma_ne (hj : j ≠ i) : statusDma base j ≠ statusDma base i := by
  unfold statusDma wireDma
  omega

theorem Inv.prepare (hpc : s.task t = .prepare c i data) :
    Inv base ({ s.setSlot i { s.slot i with expectedWritten := c.expectedWritten } with
      header := update s.header (wireDma base i) c.header
      status := update s.status (statusDma base i) uint8Max }.setTask t
        (.deadline c i data)) g (update phase i (.preparing t)) := by
  obtain ⟨hi, hphase⟩ := hinv.taskOk hpc
  obtain ⟨hstate, hdone, -⟩ := hinv.slotOk hi hphase
  generalize hs' : ({ s.setSlot i { s.slot i with expectedWritten := c.expectedWritten } with
      header := update s.header (wireDma base i) c.header
      status := update s.status (statusDma base i) uint8Max }.setTask t
        (.deadline c i data)) = s'
  have hquiet : Quiet s s' := hs' ▸ ⟨rfl, rfl, rfl, rfl, rfl⟩
  have hslot : s'.slot i = { s.slot i with expectedWritten := c.expectedWritten } := by
    rw [← hs']
    exact update_self _ _ _
  have hapart : Apart base s s' i := by
    rw [← hs']
    exact ⟨fun j hj => update_of_ne hj _ _,
      fun j hj => update_of_ne (wireDma_ne hj) _ _,
      fun j hj => update_of_ne (statusDma_ne hj) _ _⟩
  have htask : s'.task = update s.task t (.deadline c i data) := hs' ▸ rfl
  have hhandler : s'.handler = s.handler := hs' ▸ rfl
  refine hinv.ownSlot hquiet hapart ?_ (by simp [hphase]) htask hhandler ?_ nofun
    ⟨hi, update_self _ _ _, ?_⟩
  · intro t' ht
    simpa [hphase, Phase.owner] using ht.symm
  · exact ⟨by rw [hslot]; exact hstate, by rw [hslot]; exact hdone, nofun, nofun, nofun⟩
  · rw [Prepared, hslot]
    refine ⟨rfl, ?_⟩
    rw [← hs']
    exact update_self _ _ _

theorem Inv.consume (hpc : s.task t = .wait c i n) (hdone : (s.slot i).done ≠ 0) :
    (s.slot i).done ≠ uint32Max ∧
    Inv base ((s.setSlot i { s.slot i with done := (s.slot i).done - 1 }).setTask t
      (.collect c i n)) g (update phase i (.taken ⟨t, c, n⟩)) := by
  obtain ⟨hi, hwaiting⟩ := hinv.taskOk hpc
  obtain ⟨b, hb⟩ := Phase.eq_ready_of_done ((hinv.slot i hi).done ▸ hdone)
  obtain rfl : b = ⟨t, c, n⟩ := by
    rw [hb] at hwaiting
    exact Option.some.inj hwaiting
  have hslot := hinv.slotOk hi hb
  have hone : (s.slot i).done = 1 := hslot.done
  have hgrows := (quiet_setSlot s i { s.slot i with done := (s.slot i).done - 1 } t
    (.collect c i n)).grows
  refine ⟨by rw [hone]; decide, hinv.ownSlot (quiet_setSlot _ _ _ _ _) (apart_setSlot _ _ _ _ _ _)
    ?_ (by simp [hb]) rfl rfl ?_ (by rw [hb]; exact fun _ => id) ⟨hi, update_self _ _ _⟩⟩
  · intro t' ht
    simpa [hb, Phase.owner] using ht.symm
  · constructor
    · rw [slot_setSlot]
      exact hslot.state
    · rw [slot_setSlot, hone]
      rfl
    · exact nofun
    · exact fun b' hb' => hgrows.sub (hslot.sub b' hb')
    · intro b' hb'
      rw [slot_setSlot]
      exact (hslot.answered b' hb').grows hgrows

theorem Inv.release {m : Option ℕ} (hpc : s.task t = .release c i m ret) :
    Inv base ((s.setSlot i { s.slot i with state := .free }).setTask t (.returned c m ret)) g
      (update phase i .free) := by
  have htask := hinv.taskOk hpc
  have hgrows := (quiet_setSlot s i { s.slot i with state := .free } t (.returned c m ret)).grows
  -- A slot is given back before it was submitted, or after its completion was consumed.
  obtain ⟨hi, hphase, hret⟩ : i < blkSlots ∧
      (phase i = .preparing t ∨ ∃ b, phase i = .taken b ∧ b.task = t) ∧
      TaskOk base ((s.setSlot i { s.slot i with state := .free }).setTask t (.returned c m ret))
        (update phase i .free) t (.returned c m ret) := by
    cases m with
    | none => exact ⟨htask.1, .inl htask.2.1, htask.2.2⟩
    | some m => exact ⟨htask.1, .inr ⟨_, htask.2.1, rfl⟩, htask.2.2.grows hgrows⟩
  have hdone : (s.slot i).done = 0 := by
    rw [(hinv.slot i hi).done]
    rcases hphase with hphase | ⟨b, hphase, -⟩ <;> rw [hphase] <;> rfl
  have howner : (phase i).owner = some t := by
    rcases hphase with hphase | ⟨b, hphase, hb⟩
    · rw [hphase, Phase.owner]
    · rw [hphase, Phase.owner, hb]
  refine hinv.ownSlot (quiet_setSlot _ _ _ _ _) (apart_setSlot _ _ _ _ _ _) ?_ ?_ rfl rfl ?_ nofun
    hret
  · intro t' ht
    rw [howner]
    simpa using ht.symm
  · rcases hphase with hphase | ⟨b, hphase, -⟩ <;> simp [hphase]
  · exact ⟨by rw [slot_setSlot]; rfl, by rw [slot_setSlot]; exact hdone, nofun, nofun, nofun⟩

/-! ### Submission -/

omit hinv in
theorem length_bufs_le (c : Call) (base i data : ℕ) : (c.bufs base i data).length ≤ 3 := by
  unfold Call.bufs
  split <;> simp

omit hinv in
/-- Requests of at most three descriptors each. -/
theorem length_flatMap_le {flight : List Request} (h : ∀ r ∈ flight, r.chain.length ≤ 3) :
    (flight.flatMap Request.chain).length ≤ 3 * flight.length := by
  induction flight with
  | nil => exact Nat.zero_le _
  | cons r flight ih =>
    have hr := h r List.mem_cons_self
    have hrest := ih fun q hq => h q (List.mem_cons_of_mem _ hq)
    rw [List.flatMap_cons, List.length_append, List.length_cons]
    omega

omit hinv in
/-- Distinct slots that leave one out. -/
theorem length_lt_blkSlots (hnodup : l.Nodup) (hlt : ∀ j ∈ l, j < blkSlots)
    (hi : i < blkSlots) (hne : i ∉ l) : l.length < blkSlots := by
  have hnodup' : (i :: l).Nodup := List.nodup_cons.mpr ⟨hne, hnodup⟩
  have hsub : (i :: l) ⊆ List.range blkSlots := by
    intro j hj
    rcases List.mem_cons.mp hj with rfl | hj
    · exact List.mem_range.mpr hi
    · exact List.mem_range.mpr (hlt j hj)
  have hle := (List.subperm_of_subset hnodup' hsub).length_le
  rwa [List.length_cons, List.length_range] at hle

/-- There is room in the queue for every slot that is not in it. -/
theorem Inv.room (hi : i < blkSlots) (hphase : ∀ b, phase i ≠ .queued b) : 3 ≤ s.q.vq.numFree := by
  have hflight : s.q.flight.length < blkSlots := by
    rw [← List.length_map (f := Request.cookie)]
    refine length_lt_blkSlots hinv.nodup (fun j hj => ?_) hi fun hmem => ?_
    · obtain ⟨r, hr, rfl⟩ := List.mem_map.mp hj
      exact (hinv.flight r hr).lt
    · obtain ⟨r, hr, rfl⟩ := List.mem_map.mp hmem
      exact hinv.not_flying hphase r hr rfl
  have hchain : ∀ r ∈ s.q.flight, r.chain.length ≤ 3 := by
    intro r hr
    obtain ⟨b, data, -, -, hsg⟩ := (hinv.flight r hr).queued
    rw [(hinv.queue.carries r hr).filled.length, hsg]
    exact length_bufs_le _ _ _ _
  have hall := length_flatMap_le hchain
  have hnum := hinv.queue.length_le
  have hfree := hinv.queue.numFree
  simp only [blkSlots] at hflight
  omega

omit hinv in
/-- What the queue knows of is in flight. -/
theorem mem_heads {k x : ℕ} (hq : Ok k q g)
    (hx : x ∈ g.published.drop g.fetched ++ q.devHeads ∨
      x ∈ (g.completed.drop g.taken).map UsedElem.id) : x ∈ q.flight.map Request.head :=
  hq.heads.mem_iff.mpr (List.mem_append.mpr hx)

omit hinv in
/-- The section of `submit_request`, with room in the queue. -/
theorem submit_eq (hcount : (c.bufs base i data).length ≤ s.q.vq.numFree) :
    s.submit base t c i data = { s with
      q := s.q.add (c.bufs base i data) c.numOut i
      slot := update s.slot i { s.slot i with state := .submitted }
      subs := s.subs ++ [(t, c)]
      number := update s.number s.q.vq.freeHead s.subs.length
      task := update s.task t (.wait c i s.subs.length) } := by
  simp only [State.submit, State.setSlot, vqAdd, gt_iff_lt, if_neg hcount.not_gt]

/-- A caller hands its slot to the device: there is room for it. -/
theorem Inv.submit (hpc : s.task t = .submit c i data) :
    ∃ g', Inv base (s.submit base t c i data) g'
      (update phase i (.queued ⟨t, c, s.subs.length⟩)) := by
  obtain ⟨hi, hphase, hprepared⟩ := hinv.taskOk hpc
  have hcount : (c.bufs base i data).length ≤ s.q.vq.numFree :=
    (length_bufs_le _ _ _ _).trans (hinv.room hi (by simp [hphase]))
  obtain ⟨rest, hflight, hdev⟩ := System.add_flight c.numOut i hcount
  have hbufs : c.bufs base i data ≠ [] := List.cons_ne_nil _ _
  obtain ⟨left, hok⟩ := hinv.queue.add (by decide) hbufs hcount c.numOut i
  have hne := hinv.not_flying (i := i) (by simp [hphase])
  -- The head is new, so that the numbers of the other requests stay.
  have hhead : s.q.vq.freeHead ∉ s.q.flight.map Request.head := by
    have hnodup := hok.heads_nodup
    rw [hflight, List.map_cons] at hnodup
    exact (List.nodup_cons.mp hnodup).1
  have hlt : ∀ j < blkSlots, ∀ b, (phase j).sub = some b → b.number < s.subs.length :=
    fun j hj b hb => (List.getElem?_eq_some_iff.mp ((hinv.slot j hj).sub b hb)).1
  rw [submit_eq hcount]
  generalize hs' : State.mk _ _ _ _ _ _ _ _ _ _ _ = s'
  have hgrows : Grows s s' := hs' ▸ ⟨List.prefix_append _ _, List.Subset.refl _⟩
  have hapart : Apart base s s' i := by
    rw [← hs']
    exact ⟨fun j hj => update_of_ne hj _ _, fun _ _ => rfl, fun _ _ => rfl⟩
  have hslot : s'.slot i = { s.slot i with state := .submitted } := by
    rw [← hs']
    exact update_self _ _ _
  have htask : s'.task = update s.task t (.wait c i s.subs.length) := by rw [← hs']
  have hself : s'.number s.q.vq.freeHead = s.subs.length := by
    rw [← hs']
    exact update_self _ _ _
  have hnumber : ∀ x ∈ s.q.flight.map Request.head, s'.number x = s.number x := by
    intro x hx
    rw [← hs']
    refine update_of_ne ?_ _ _
    rintro rfl
    exact hhead hx
  have hanswers : s'.answers = s.answers := by rw [← hs']
  have hdev' : s'.q.devHeads = s.q.devHeads := by rw [← hs', ← hdev]
  have hflight' : s'.q.flight = ⟨c.bufs base i data, c.numOut, i, s.q.vq.freeHead, rest⟩ ::
      s.q.flight := by rw [← hs', ← hflight]
  refine ⟨{ g with free := left, published := g.published ++ [s.q.vq.freeHead] }, ?_⟩
  exact
    { queue := hs' ▸ hok
      fault := hs' ▸ hinv.fault
      flight := by
        intro r hr
        rw [hflight'] at hr
        rcases List.mem_cons.mp hr with rfl | hr
        · exact ⟨hi, _, data, update_self _ _ _, hself, rfl⟩
        · obtain ⟨b, data', hb, hnum, hsg⟩ := (hinv.flight r hr).queued
          refine ⟨(hinv.flight r hr).lt, b, data', ?_, ?_, hsg⟩
          · rw [update_of_ne (hne r hr), hb]
          · rw [hnumber _ (List.mem_map_of_mem hr), hnum]
      nodup := by
        rw [hflight', List.map_cons]
        refine List.nodup_cons.mpr ⟨fun hmem => ?_, hinv.nodup⟩
        obtain ⟨r, hr, heq⟩ := List.mem_map.mp hmem
        exact hne r hr heq
      slot := by
        intro j hj
        by_cases hji : j = i
        · subst hji
          rw [update_self]
          refine ⟨by rw [hslot]; rfl, ?_, ?_, ?_, nofun⟩
          · rw [hslot]
            exact (hinv.slotOk hj hphase).done
          · rintro b ⟨rfl⟩
            rwa [Prepared, hslot, ← hs']
          · rintro b ⟨rfl⟩
            rw [← hs']
            exact List.getElem?_concat_length
        · rw [update_of_ne hji]
          exact (hinv.slot j hj).grows hgrows (hapart.slot j hji) (hapart.header j hji)
      distinct := by
        intro j hj k hk b b' hb hb' heq
        by_cases hji : j = i <;> by_cases hki : k = i
        · rw [hji, hki]
        · rw [hji, update_self] at hb
          rw [update_of_ne hki] at hb'
          cases hb
          exact absurd heq.symm (hlt k hk b' hb').ne
        · rw [hki, update_self] at hb'
          rw [update_of_ne hji] at hb
          cases hb'
          exact absurd heq (hlt j hj b hb).ne
        · rw [update_of_ne hji] at hb
          rw [update_of_ne hki] at hb'
          exact hinv.distinct j hj k hk b b' hb hb' heq
      task := by
        refine hinv.tasks hgrows hapart ?_ htask ⟨hi, ?_⟩
        · intro t' ht
          simpa [hphase, Phase.owner] using ht.symm
        · rw [update_self]
          rfl
      handler := by
        intro h
        rw [← hs']
        exact (hinv.handler h).apart (by simp [hphase])
      used := by
        intro e he
        have hmem := mem_heads hinv.queue (.inr (List.mem_map_of_mem (f := UsedElem.id) he))
        obtain ⟨a, ha, hwritten, hall⟩ := hinv.used e he
        refine ⟨a, ?_, hwritten, fun r hr hid => ?_⟩
        · rwa [hnumber _ hmem, hanswers]
        · rw [hflight'] at hr
          rcases List.mem_cons.mp hr with rfl | hr
          · rw [← hid] at hmem
            exact absurd hmem hhead
          · rw [← hs']
            exact hall r hr hid
      pending := by
        intro x hx a ha
        rw [List.drop_append_of_le_length hinv.queue.avail.le, hdev', List.append_assoc,
          List.singleton_append] at hx
        rw [hanswers] at ha
        rcases List.mem_cons.mp (List.perm_middle.mem_iff.mp hx) with rfl | hx
        · -- The new number is larger than that of any answer.
          rw [hself] at ha
          exact absurd (hinv.answered _ ha) (lt_irrefl _)
        · rw [hnumber x (mem_heads hinv.queue (.inl hx))] at ha
          exact hinv.pending x hx a ha
      answers := hs' ▸ hinv.answers
      answered := by
        intro p hp
        rw [← hs'] at hp ⊢
        rw [List.length_append]
        exact (hinv.answered p hp).trans_le (Nat.le_add_right _ _) }

/-! ### Steps of a handler -/

/-- A step of the queue that takes requests away. -/
theorem Inv.requeue {g' : Ledger} {fault : Option Fault} (hq : Ok 6 q g')
    (hfault : fault = none ∨ fault = some .invalidStatus) (hflight : q.flight ⊆ s.q.flight)
    (hnodup : (q.flight.map Request.cookie).Nodup)
    (hused : g'.completed.drop g'.taken ⊆ g.completed.drop g.taken)
    (hpending : g'.published.drop g'.fetched ++ q.devHeads ⊆
      g.published.drop g.fetched ++ s.q.devHeads) :
    Inv base { s with q := q, fault := fault, holder := holder } g' phase := by
  have hgrows : Grows s { s with q := q, fault := fault, holder := holder } :=
    ⟨List.prefix_rfl, List.Subset.refl _⟩
  exact
    { queue := hq
      fault := hfault
      flight := fun r hr => ⟨(hinv.flight r (hflight hr)).lt, (hinv.flight r (hflight hr)).queued⟩
      nodup := hnodup
      slot := fun i hi => (hinv.slot i hi).grows hgrows rfl rfl
      distinct := hinv.distinct
      task := fun t => (hinv.task t).stays hgrows fun i _ _ => .inl ⟨rfl, fun _ hc => hc⟩
      handler := hinv.handler
      used := by
        intro e he
        obtain ⟨a, ha, hwritten, hall⟩ := hinv.used e (hused he)
        exact ⟨a, ha, hwritten, fun r hr => hall r (hflight hr)⟩
      pending := fun x hx => hinv.pending x (hpending hx)
      answers := hinv.answers
      answered := hinv.answered }

/-- What `vq_get_buf` returns to the handler: a slot that is in the queue, and what the device
wrote for it. -/
theorem Inv.getBuf (hget : vqGetBuf s.q.vq = .ok (some (i, written), vq)) :
    ∃ g' b a, i < blkSlots ∧ phase i = .queued b ∧ (b.number, a) ∈ s.answers ∧
      a.header = b.call.header ∧ a.written = written ∧
      s.status (statusDma base i) = a.status ∧ (∀ r ∈ s.q.getBuf.flight, r.cookie ≠ i) ∧
      ∀ fault holder, (fault = none ∨ fault = some .invalidStatus) →
        Inv base { s with q := s.q.getBuf, fault := fault, holder := holder } g' phase := by
  have hq := hinv.queue
  rcases hq.taken_le.eq_or_lt with hnone | hshown
  · rw [hq.getBuf_none (by decide) hnone] at hget
    cases hget
  have hlt : g.taken < g.completed.length := hshown.trans_le hq.shown_le
  obtain ⟨r, hr, hhead, hperm, ⟨vq', hget', -⟩, hok⟩ := hq.getBuf_some (by decide) hshown hlt
  rw [hget'] at hget
  obtain ⟨⟨rfl, rfl⟩, -⟩ : (r.cookie = i ∧ g.completed[g.taken].len = written) ∧ vq' = vq := by
    simpa using hget
  have hdrop : g.completed.drop g.taken = g.completed[g.taken] :: g.completed.drop (g.taken + 1) :=
    List.drop_eq_getElem_cons hlt
  obtain ⟨a, ha, hwritten, hall⟩ := hinv.used _ (hdrop ▸ List.mem_cons_self)
  obtain ⟨hstatus, hheader⟩ := hall r hr hhead
  obtain ⟨hi, b, data, hb, hnum, -⟩ := hinv.flight r hr
  have hnodup := hinv.nodup
  rw [(hperm.map Request.cookie).nodup_iff, List.map_cons, List.nodup_cons] at hnodup
  refine ⟨{ g with free := r.chain ++ g.free, taken := g.taken + 1 }, b, a, hi, hb, ?_, ?_,
    hwritten,
    hstatus, fun q hq heq => ?_, fun fault holder hf => ?_⟩
  · rwa [← hnum, hhead]
  · rw [← hheader]
    exact ((hinv.slotOk hi hb).prepared b rfl).2
  · exact hnodup.1 (heq ▸ List.mem_map_of_mem hq)
  · refine hinv.requeue hok hf ?_ hnodup.2 ?_ ?_
    · exact fun q hq => hperm.mem_iff.mpr (List.mem_cons_of_mem _ hq)
    · rw [hdrop]
      exact List.subset_cons_self _ _
    · rw [System.getBuf_devHeads]
      exact List.Subset.refl _

omit hinv in
theorem slot_setHandler (s : State) (i : ℕ) (x : Slot) (h : ℕ) (y : Handler) :
    ((s.setSlot i x).setHandler h y).slot i = x := update_self _ _ _

omit hinv in
theorem handler_setHandler (s : State) (i : ℕ) (x : Slot) (h : ℕ) (y : Handler) :
    ((s.setSlot i x).setHandler h y).handler = update s.handler h y := rfl

/-- A slot goes from hand to hand while its caller waits. -/
theorem Inv.pass {b : Sub} {x : Slot} {y : Handler} (hne : ∀ r ∈ s.q.flight, r.cookie ≠ i)
    (hb : (phase i).waiting = some b) (hb' : p.waiting = some b)
    (hslot : SlotOk base ((s.setSlot i x).setHandler h y) i p)
    (hcollected : ∀ h' b', h' ≠ h → phase i ≠ .collected b' h')
    (hy : HandlerOk (update phase i p) h y) :
    Inv base ((s.setSlot i x).setHandler h y) g (update phase i p) := by
  have hquiet : Quiet s ((s.setSlot i x).setHandler h y) := ⟨rfl, rfl, rfl, rfl, rfl⟩
  have hapart : Apart base s ((s.setSlot i x).setHandler h y) i :=
    ⟨fun j hj => update_of_ne hj _ _, fun _ _ => rfl, fun _ _ => rfl⟩
  refine hinv.move hquiet hapart hne hslot ?_ ?_ ?_
  · intro b' hb''
    rw [Phase.sub_of_waiting hb'] at hb''
    rw [Phase.sub_of_waiting hb, hb'']
  · refine fun t => (hinv.task t).stays hquiet.grows fun j _ _ => ?_
    by_cases hji : j = i
    · subst hji
      refine .inr ⟨b, hb, ?_⟩
      rw [update_self, hb']
    · exact .inl ⟨update_of_ne hji _ _, fun c hc => hapart.prepared hji hc⟩
  · rw [handler_setHandler]
    exact (forall_update_iff s.handler fun h x => HandlerOk (update phase i p) h x).mpr
      ⟨hy, fun h' hh => (hinv.handler h').apart fun b' => hcollected h' b' hh⟩

/-- A handler collects a slot: it was submitted, and there is room in `completed`. -/
theorem Inv.collect (hfault : s.fault = none) (hhandler : s.handler h = .collecting l)
    (hget : vqGetBuf s.q.vq = .ok (some (i, written), vq)) :
    ∃ g' phase', Inv base ({ s with q := s.q.getBuf }.collect base h i written l) g' phase' := by
  obtain ⟨g', b, a, hi, hb, ha, hheader, rfl, hstatus, hne, hinv'⟩ := hinv.getBuf hget
  have hslot := hinv.slotOk hi hb
  have hexpected := (hslot.prepared b rfl).1
  have hsubmitted : (s.slot i).state = .submitted := hslot.state
  have hlist := hinv.handlerOk hhandler
  have hmem : i ∉ l := by
    intro hmem
    obtain ⟨b', hb'⟩ := (hlist.2 i hmem).2
    rw [hb] at hb'
    cases hb'
  have hlen : l.length < blkSlots :=
    length_lt_blkSlots hlist.1 (fun j hj => (hlist.2 j hj).1) hi hmem
  unfold State.collect
  simp only [hsubmitted, ne_eq, not_true_eq_false, if_false, hexpected, hstatus]
  cases hout : outcome b.call.expectedWritten a.written a.status with
  | none => exact ⟨g', phase, hinv' _ _ (.inr rfl)⟩
  | some result =>
    simp only [ge_iff_le, if_neg hlen.not_ge]
    refine ⟨g', update phase i (.collected b h), ?_⟩
    have hinv'' := hinv' s.fault s.holder (.inl hfault)
    refine hinv''.pass hne (b := b) (by rw [hb]; rfl) rfl ?_ (by simp [hb]) ?_
    · refine ⟨by rw [slot_setHandler]; rfl, by rw [slot_setHandler]; exact hslot.done, nofun,
        hslot.sub, ?_⟩
      rintro b' ⟨rfl⟩
      rw [slot_setHandler]
      exact ⟨hslot.sub b rfl, a, ha, hheader, hout⟩
    · refine ⟨List.nodup_append.mpr ⟨hlist.1, List.nodup_singleton _, ?_⟩, fun j hj => ?_⟩
      · rintro j hj k hk rfl
        rw [List.mem_singleton] at hk
        exact hmem (hk ▸ hj)
      · by_cases hji : j = i
        · subst hji
          exact ⟨hi, b, update_self _ _ _⟩
        · rw [update_of_ne hji]
          exact hlist.2 j ((List.mem_append.mp hj).resolve_right (by simpa using hji))

theorem Inv.signal (hhandler : s.handler h = .signalling (i :: l)) :
    (s.slot i).done = 0 ∧ ∃ phase', Inv base ((s.setSlot i { s.slot i with
      done := 1 }).setHandler h (.signalling l)) g phase' := by
  have hlist := hinv.handlerOk hhandler
  obtain ⟨hi, b, hb⟩ := hlist.2 i List.mem_cons_self
  have hslot := hinv.slotOk hi hb
  have hnodup := List.nodup_cons.mp hlist.1
  refine ⟨hslot.done, update phase i (.ready b), ?_⟩
  refine hinv.pass (hinv.not_flying (by simp [hb])) (b := b) (by rw [hb]; rfl) rfl ?_ ?_ ?_
  · refine ⟨by rw [slot_setHandler]; exact hslot.state, by rw [slot_setHandler]; rfl, nofun,
      hslot.sub, ?_⟩
    rw [slot_setHandler]
    exact hslot.answered
  · intro h' b' hh heq
    rw [hb] at heq
    cases heq
    exact hh rfl
  · refine ⟨hnodup.2, fun j hj => ?_⟩
    have hji : j ≠ i := fun heq => hnodup.1 (heq ▸ hj)
    rw [update_of_ne hji]
    exact hlist.2 j (List.mem_cons_of_mem _ hj)

/-! ### Steps of the device -/

/-- Different places of the queue hold different heads. -/
theorem Inv.apart_heads : (g.published.drop g.fetched ++ s.q.devHeads ++
      (g.completed.drop g.taken).map UsedElem.id).Nodup :=
  hinv.queue.heads.nodup_iff.mp hinv.queue.heads_nodup

/-- Requests with one number are one request. -/
theorem Inv.eq_of_number {r r' : Request} (hr : r ∈ s.q.flight) (hr' : r' ∈ s.q.flight)
    (heq : s.number r.head = s.number r'.head) : r = r' := by
  obtain ⟨hlt, b, -, hb, hnum, -⟩ := hinv.flight r hr
  obtain ⟨hlt', b', -, hb', hnum', -⟩ := hinv.flight r' hr'
  rw [hnum, hnum'] at heq
  have hcookie : r.cookie = r'.cookie :=
    hinv.distinct _ hlt _ hlt' b b' (by rw [hb]; rfl) (by rw [hb']; rfl) heq
  exact List.inj_on_of_nodup_map hinv.nodup hr hr' hcookie

/-- The addresses that the device finds in the chain of a request. -/
theorem Inv.addresses {r : Request} (hr : r ∈ s.q.flight) :
    (s.q.vq.desc r.head).addr = wireDma base r.cookie ∧
    ∃ x m, walk s.q.vq.desc s.q.vq.num r.head 0 = some (x, m) ∧
      (s.q.vq.desc x).addr = statusDma base r.cookie := by
  obtain ⟨-, b, data, -, -, hsg⟩ := hinv.flight r hr
  have hfilled := (hinv.queue.carries r hr).filled
  rw [hsg] at hfilled
  obtain ⟨l, x, hchain⟩ : ∃ l x, r.chain = l ++ [x] :=
    ⟨_, _, (List.dropLast_append_getLast (List.cons_ne_nil _ _)).symm⟩
  refine ⟨hfilled.1.1, x, _, hinv.queue.walk hr hchain 0, ?_⟩
  rw [hchain, Call.bufs, ← List.cons_append] at hfilled
  exact hfilled.last

theorem Inv.complete {head status : ℕ} {s' : State} (hmem : head ∈ s.q.devHeads)
    (hq : Ok 6 q { g with completed := g.completed ++ [⟨head, written⟩] })
    (hflight : q.flight = s.q.flight) (hdev : q.devHeads = s.q.devHeads.erase head) {x m : ℕ}
    (hwalk : walk s.q.vq.desc s.q.vq.num head 0 = some (x, m))
    (hs' : s' = { s with
      q := q
      status := update s.status (s.q.vq.desc x).addr status
      answers := s.answers ++
        [(s.number head, ⟨s.header (s.q.vq.desc head).addr, written, status⟩)] }) :
    Inv base s' { g with completed := g.completed ++ [⟨head, written⟩] } phase := by
  have hinFlight : head ∈ s.q.flight.map Request.head :=
    mem_heads hinv.queue (.inl (List.mem_append_right _ hmem))
  obtain ⟨r, hr, rfl⟩ := List.mem_map.mp hinFlight
  obtain ⟨hheader, y, n, hwalk', hstatus⟩ := hinv.addresses hr
  obtain ⟨rfl, rfl⟩ : y = x ∧ n = m := by simpa [hwalk'] using hwalk
  obtain ⟨hlt, b, data, hb, hnum, hsg⟩ := hinv.flight r hr
  have hsame : ∀ r' ∈ s.q.flight, r'.head = r.head → r' = r := fun r' hr' heq =>
    List.inj_on_of_nodup_map hinv.queue.heads_nodup hr' hr heq
  have hcookie : ∀ r' ∈ s.q.flight, r'.head ≠ r.head → r'.cookie ≠ r.cookie := by
    intro r' hr' hne heq
    exact hne (congrArg Request.head (List.inj_on_of_nodup_map hinv.nodup hr' hr heq))
  have hapart := hinv.apart_heads
  obtain ⟨hnodup, -, hdisjoint⟩ := List.nodup_append.mp hapart
  rw [hheader, hstatus] at hs'
  have hgrows : Grows s s' := by
    rw [hs']
    exact ⟨List.prefix_rfl, List.subset_append_left _ _⟩
  have hnumber : s'.number = s.number := by rw [hs']
  have hanswers : s'.answers = s.answers ++
      [(s.number r.head, ⟨s.header (wireDma base r.cookie), written, status⟩)] := by rw [hs']
  exact
    { queue := hs' ▸ hq
      fault := hs' ▸ hinv.fault
      flight := by
        intro r' hr'
        rw [hs'] at hr'
        have hfly := hinv.flight r' (hflight ▸ hr')
        exact ⟨hfly.lt, hnumber ▸ hfly.queued⟩
      nodup := hs' ▸ hflight ▸ hinv.nodup
      slot := by
        intro i hi
        exact (hinv.slot i hi).grows hgrows (by rw [hs']) (by rw [hs'])
      distinct := hinv.distinct
      task := by
        intro t
        rw [show s'.task = s.task by rw [hs']]
        refine (hinv.task t).stays hgrows fun i _ _ => .inl ⟨rfl, fun c hc => ?_⟩
        rw [hs']
        exact hc
      handler := hs' ▸ hinv.handler
      used := by
        intro e he
        rw [List.drop_append_of_le_length hinv.queue.used.le] at he
        rcases List.mem_append.mp he with he | he
        · obtain ⟨a, ha, hwritten, hall⟩ := hinv.used e he
          have hne : e.id ≠ r.head := fun heq => hdisjoint r.head (List.mem_append_right _ hmem)
            e.id (List.mem_map_of_mem he) heq.symm
          refine ⟨a, hnumber ▸ hgrows.answers ha, hwritten, fun r' hr' hid => ?_⟩
          rw [hs'] at hr' ⊢
          rw [hflight] at hr'
          have hstay := hcookie r' hr' (hid ▸ hne)
          obtain ⟨hold, hold'⟩ := hall r' hr' hid
          exact ⟨(update_of_ne (statusDma_ne hstay) _ _).trans hold, hold'⟩
        · obtain rfl := List.mem_singleton.mp he
          refine ⟨⟨s.header (wireDma base r.cookie), written, status⟩, ?_, rfl,
            fun r' hr' hid => ?_⟩
          · rw [hanswers, hnumber]
            exact List.mem_append_right _ (List.mem_singleton.mpr rfl)
          · rw [hs'] at hr' ⊢
            rw [hflight] at hr'
            obtain rfl := hsame r' hr' hid
            exact ⟨update_self _ _ _, rfl⟩
      pending := by
        intro z hz a ha
        rw [show s'.q = q by rw [hs'], hdev] at hz
        rw [hnumber, hanswers] at ha
        have hz' : z ∈ g.published.drop g.fetched ++ s.q.devHeads := by
          rcases List.mem_append.mp hz with hz | hz
          · exact List.mem_append_left _ hz
          · exact List.mem_append_right _ (List.mem_of_mem_erase hz)
        rcases List.mem_append.mp ha with ha | ha
        · exact hinv.pending z hz' a ha
        · -- The number of another request would have to be that of this one.
          have hhead : z = r.head := by
            obtain ⟨r', hr', rfl⟩ := List.mem_map.mp (mem_heads hinv.queue (.inl hz'))
            have heq := congrArg Prod.fst (List.mem_singleton.mp ha)
            rw [hinv.eq_of_number hr' hr heq]
          obtain ⟨-, hdevNodup, hdevDisjoint⟩ := List.nodup_append.mp hnodup
          rcases List.mem_append.mp hz with hz | hz
          · exact hdevDisjoint z hz r.head hmem hhead
          · rw [hhead] at hz
            exact hdevNodup.not_mem_erase hz
      answers := by
        rw [hanswers, List.map_append]
        refine List.nodup_append.mpr ⟨hinv.answers, List.nodup_singleton _, ?_⟩
        rintro z hz w hw rfl
        obtain rfl := List.mem_singleton.mp hw
        obtain ⟨⟨p, a⟩, hp, hfst⟩ := List.mem_map.mp hz
        obtain rfl : p = s.number r.head := hfst
        exact hinv.pending r.head (List.mem_append_right _ hmem) a hp
      answered := by
        intro p hp
        rw [hanswers] at hp
        rw [show s'.subs = s.subs by rw [hs']]
        rcases List.mem_append.mp hp with hp | hp
        · exact hinv.answered p hp
        · rw [List.mem_singleton.mp hp, hnum]
          exact (List.getElem?_eq_some_iff.mp ((hinv.slotOk hlt hb).sub b rfl)).1 }

/-! ### Every step -/

theorem Inv.taskStep {op : TaskOp} (hstep : s.taskStep base t op = some s') :
    ∃ g' phase', Inv base s' g' phase' := by
  unfold State.taskStep at hstep
  split at hstep
  case h_1 | h_2 =>
    cases hstep
    exact ⟨g, phase, hinv.setTask trivial⟩
  case h_3 c hpc =>
    split at hstep
    · cases hstep
    split at hstep
    · cases hstep
      exact ⟨g, phase, hinv⟩
    next i hfind =>
      cases hstep
      exact ⟨g, _, hinv.reserve hfind⟩
  case h_4 c i data hpc =>
    cases hstep
    have htask := hinv.taskOk hpc
    exact ⟨g, phase, hinv.setTask htask⟩
  case h_5 c i e hpc =>
    obtain ⟨hi, hphase⟩ := hinv.taskOk hpc
    split at hstep <;> cases hstep
    exact ⟨g, phase, hinv.setTask ⟨hi, hphase, by simp⟩⟩
  case h_6 c i data hpc =>
    cases hstep
    exact ⟨g, _, hinv.prepare hpc⟩
  case h_7 c i data _ hpc =>
    cases hstep
    have htask := hinv.taskOk hpc
    exact ⟨g, phase, hinv.setTask htask⟩
  case h_8 c i data e hpc =>
    cases hstep
    obtain ⟨hi, hphase, -⟩ := hinv.taskOk hpc
    exact ⟨g, phase, hinv.setTask ⟨hi, hphase, by simp⟩⟩
  case h_9 c i data hpc =>
    split at hstep <;> cases hstep
    obtain ⟨g', hinv'⟩ := hinv.submit hpc
    exact ⟨g', _, hinv'⟩
  case h_10 c i n hpc =>
    split at hstep
    · cases hstep
    next hdone =>
      obtain ⟨hmax, hinv'⟩ := hinv.consume hpc hdone
      rw [if_pos hmax] at hstep
      cases hstep
      exact ⟨g, _, hinv'⟩
  case h_11 c i n hpc =>
    cases hstep
    obtain ⟨hi, hphase⟩ := hinv.taskOk hpc
    exact ⟨g, phase, hinv.setTask ⟨hi, hphase, (hinv.slotOk hi hphase).answered ⟨t, c, n⟩ rfl⟩⟩
  case h_12 c i n ret hpc =>
    split at hstep <;> cases hstep
    exact ⟨g, _, hinv.release hpc⟩
  case h_13 => cases hstep

theorem Inv.handlerStep (hfault : s.fault = none) (hstep : s.handlerStep base h = some s') :
    ∃ g' phase', Inv base s' g' phase' := by
  unfold State.handlerStep at hstep
  split at hstep
  case h_1 hx =>
    split at hstep <;> cases hstep
    exact ⟨g, phase, hinv.setHandler ⟨List.nodup_nil, nofun⟩⟩
  case h_2 l hx =>
    split at hstep
    case h_1 e hget =>
      rcases hinv.queue.getBuf_cases (by decide) with hok | ⟨result, hok, -⟩
      · cases hok.symm.trans hget
      · cases hok.symm.trans hget
    case h_2 vq hget =>
      cases hstep
      rcases hinv.queue.getBuf_cases (by decide) with hok | ⟨result, hok, hsome⟩
      · have hsame : s.q.getBuf = s.q := by rw [System.getBuf, hok]
        have hlist := hinv.handlerOk hx
        rw [hsame]
        exact ⟨g, phase, hinv.setHandler hlist⟩
      · cases hok.symm.trans hget
        exact absurd rfl hsome
    case h_3 i written vq hget =>
      cases hstep
      exact hinv.collect hfault hx hget
  case h_3 hx =>
    cases hstep
    exact ⟨g, phase, hinv.setHandler trivial⟩
  case h_4 i l hx =>
    obtain ⟨hdone, phase', hinv'⟩ := hinv.signal hx
    simp only [hdone] at hstep
    cases hstep
    exact ⟨g, phase', hinv'⟩

theorem Inv.deviceStep {op : DeviceOp} (hstep : s.deviceStep op = some s') :
    ∃ g' phase', Inv base s' g' phase' := by
  have hq := hinv.queue
  cases op with
  | fetch =>
    obtain ⟨q, hfetch, rfl⟩ := Option.map_eq_some_iff.mp hstep
    unfold Virtio.step at hfetch
    rw [if_neg (not_not.mpr hq.fault)] at hfetch
    obtain ⟨hne, rfl⟩ := ite_eq_some.mp hfetch
    obtain ⟨hlt, hslot⟩ := hq.next_head (by decide) hne
    refine ⟨_, phase, hinv.requeue (hq.fetch (by decide) hne) hinv.fault (List.Subset.refl _)
      hinv.nodup (List.Subset.refl _) ?_⟩
    rw [hslot, List.drop_eq_getElem_cons hlt, List.cons_append]
    exact List.perm_middle.subset
  | publish =>
    obtain ⟨q, hpublish, rfl⟩ := Option.map_eq_some_iff.mp hstep
    unfold Virtio.step at hpublish
    rw [if_neg (not_not.mpr hq.fault)] at hpublish
    cases hpublish
    exact ⟨_, phase, hinv.requeue hq.publish hinv.fault (List.Subset.refl _) hinv.nodup
      (List.Subset.refl _) (List.Subset.refl _)⟩
  | complete head written status =>
    obtain ⟨q, hstep, hlast⟩ := Option.bind_eq_some_iff.mp hstep
    obtain ⟨⟨x, m⟩, hwalk, hs'⟩ := Option.map_eq_some_iff.mp hlast
    unfold Virtio.step at hstep
    rw [if_neg (not_not.mpr hq.fault)] at hstep
    obtain ⟨hmem, rfl⟩ := ite_eq_some.mp hstep
    exact ⟨_, phase, hinv.complete hmem (hq.complete (by decide) hmem written) rfl rfl hwalk
      hs'.symm⟩

theorem Inv.step {b : Action} (hstep : step base s b = some s') :
    ∃ g' phase', Inv base s' g' phase' := by
  unfold VirtioBlk.step at hstep
  split at hstep
  · cases hstep
  next hfault =>
    rw [not_not] at hfault
    cases b with
    | task t op => exact hinv.taskStep hstep
    | handler h => exact hinv.handlerStep hfault hstep
    | device op => exact hinv.deviceStep hstep

end

/-- After the probe every slot is free. -/
theorem inv_boot (base : ℕ) : ∃ g phase, Inv base boot g phase := by
  obtain ⟨g, hg⟩ := Virtio.inv_boot 6
  refine ⟨g, fun _ => .free, ?_⟩
  have hnone : g.published.drop g.fetched ++ boot.q.devHeads ++
      (g.completed.drop g.taken).map UsedElem.id = [] := hg.heads.symm.eq_nil
  rw [List.append_eq_nil_iff] at hnone
  exact
    { queue := hg
      fault := .inl rfl
      flight := nofun
      nodup := List.nodup_nil
      slot := fun _ _ => ⟨rfl, rfl, nofun, nofun, nofun⟩
      distinct := nofun
      task := fun _ => trivial
      handler := fun _ => trivial
      used := by
        rw [List.map_eq_nil_iff.mp hnone.2]
        exact nofun
      pending := by
        rw [hnone.1]
        exact nofun
      answers := List.nodup_nil
      answered := nofun }

/-! ### What callers rely on -/

/-- What callers of `submit_request` rely on. -/
structure BlkOk (s : State) : Prop where
  /-- No assertion fails; the only panic is about a status that the device must not write. -/
  fault : s.fault = none ∨ s.fault = some .invalidStatus
  /-- Before a submission the queue has room for it. -/
  capacity : ∀ t c i data, s.task t = .submit c i data → ∀ base,
    (c.bufs base i data).length ≤ s.q.vq.numFree
  /-- A handler collects at most as many requests as there are slots. -/
  collected : ∀ h l, s.handler h = .collecting l → l.length ≤ blkSlots
  /-- What the handler sees next was submitted. -/
  submitted : ∀ i written vq, vqGetBuf s.q.vq = .ok (some (i, written), vq) →
    i < blkSlots ∧ (s.slot i).state = .submitted
  /-- A free slot is not in the queue, and its completion has no count. -/
  free : ∀ i < blkSlots, (s.slot i).state = .free →
    (s.slot i).done = 0 ∧ ∀ r ∈ s.q.flight, r.cookie ≠ i
  /-- A call returns the result of its own submission, which was answered once. -/
  own : ∀ t c n ret, s.task t = .returned c (some n) ret → Returns s t c n ret
  once : (s.answers.map Prod.fst).Nodup
  /-- A call that did not get to submit anything returns an error. -/
  failed : ∀ t c ret, s.task t = .returned c none ret → ret ≠ none

theorem Inv.blkOk (hinv : Inv base s g phase) : BlkOk s where
  fault := hinv.fault
  capacity := by
    intro t c i data hpc base'
    obtain ⟨hi, hphase, -⟩ := hinv.taskOk hpc
    exact (length_bufs_le _ _ _ _).trans (hinv.room hi (by simp [hphase]))
  collected := by
    intro h l hx
    have hhandler := hinv.handlerOk hx
    have hsub : l ⊆ List.range blkSlots := fun i hi => List.mem_range.mpr (hhandler.2 i hi).1
    simpa using (List.subperm_of_subset hhandler.1 hsub).length_le
  submitted := by
    intro i written vq hget
    obtain ⟨-, b, -, hi, hb, -⟩ := hinv.getBuf hget
    exact ⟨hi, (hinv.slotOk hi hb).state⟩
  free := by
    intro i hi hstate
    have hfree := Phase.eq_free_of_state ((hinv.slot i hi).state ▸ hstate)
    exact ⟨(hinv.slotOk hi hfree).done, hinv.not_flying (by simp [hfree])⟩
  own := fun _ _ _ _ => hinv.taskOk
  once := hinv.answers
  failed := fun _ _ _ => hinv.taskOk

/-- **Block requests.** For any number of callers and handlers, and a device that answers what
it was given. -/
theorem blkOk_of_reachable (hs : Reachable (· = boot) (Graph (step base)) s) : BlkOk s := by
  have hinit : ∀ s : State, s = boot → ∃ g phase, Inv base s g phase := by
    rintro s rfl
    exact inv_boot base
  have hstep : ∀ s b s', (∃ g phase, Inv base s g phase) → Graph (step base) s b s' →
      ∃ g phase, Inv base s' g phase := by
    rintro s b s' ⟨g, phase, hinv⟩ hstep
    exact hinv.step hstep
  obtain ⟨g, phase, hinv⟩ := hs.invariant hinit hstep
  exact hinv.blkOk

/-! ### A run -/

/-- Two callers; the handler has collected both requests and signals the first one. Its caller
returns and a third one takes the slot and submits before the second is signalled. -/
def slotReuse : List Action :=
  [.task 0 (.call ⟨.read, 5, 512⟩), .task 0 .run, .task 0 (.ok 4096), .task 0 .run,
    .task 0 (.ok 0), .task 0 .run,
    .task 1 (.call ⟨.flush, 0, 0⟩), .task 1 .run, .task 1 (.ok 0), .task 1 .run,
    .task 1 (.ok 0), .task 1 .run,
    .device .fetch, .device .fetch, .device (.complete 0 513 0), .device (.complete 3 1 1),
    .device .publish, .handler 0, .handler 0, .handler 0, .handler 0, .handler 0,
    .task 0 .run, .task 0 .run, .task 0 .run,
    .task 2 (.call ⟨.write, 9, 512⟩), .task 2 .run, .task 2 (.ok 8192), .task 2 .run,
    .task 2 (.ok 0), .task 2 .run,
    .handler 0, .task 1 .run, .task 1 .run, .task 1 .run]

/-- Both callers have their own results, and the slot of the first is in the queue again. -/
theorem blkOk_slotReuse : ∃ s : State, Reachable (· = boot) (Graph (step 65536)) s ∧ BlkOk s ∧
    s.task 0 = .returned ⟨.read, 5, 512⟩ (some 0) none ∧
    s.task 1 = .returned ⟨.flush, 0, 0⟩ (some 1) (some .eio) ∧
    s.task 2 = .wait ⟨.write, 9, 512⟩ 0 2 :=
  exists_of_exec slotReuse rfl (fun _ hs => blkOk_of_reachable hs) (by decide +kernel)

end Nuvix.VirtioBlk
