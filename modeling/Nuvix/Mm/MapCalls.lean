import Nuvix.Mm.RangeEdits

/-!
# Mapping calls that fail

The calls make every allocation they may need before their first change, and what is inserted
after it meets a free range. So a call of `mmap`, `munmap` or `brk` that fails has changed
nothing.
-/

namespace Nuvix

open SearchTree

namespace MapState

variable {ε : Type} {cfg : MmConfig} {rb : Rebalance Vma} {ok : ℕ → Bool} {s s' s'' : MapState ε}
  {t : Bst Vma} {v : Vma} {start stop addr len : ℕ} {E : Errno → MapState ε → Prop}

/-! ### Address spaces -/

/-- The layout is good, and below the top of the stack only pages of VMAs have entries. Above it
there is the page of the trampoline, which has an entry and no VMA. -/
structure Ok (cfg : MmConfig) (s : MapState ε) : Prop where
  mm : MmOk cfg s.mm
  mapped : ∀ page, page * pageSize < ustackTop → (s.pte page).isSome →
    attr s.mm.vmas (page * pageSize) ≠ none

/-- Nothing has changed outside a range. -/
structure SameOutside (start stop : ℕ) (s s' : MapState ε) : Prop where
  attr : ∀ a, ¬ (start ≤ a ∧ a < stop) → Nuvix.attr s'.mm.vmas a = Nuvix.attr s.mm.vmas a
  pte : ∀ page, ¬ PageStarts start stop page → s'.pte page = s.pte page

theorem SameOutside.refl : SameOutside start stop s s := ⟨fun _ _ => rfl, fun _ _ => rfl⟩

theorem SameOutside.trans (h : SameOutside start stop s s') (h' : SameOutside start stop s' s'') :
    SameOutside start stop s s'' :=
  ⟨fun a ha => (h'.attr a ha).trans (h.attr a ha),
    fun page hp => (h'.pte page hp).trans (h.pte page hp)⟩

/-- No address of the range is mapped. -/
def Free (start stop : ℕ) (s : MapState ε) : Prop :=
  ∀ a, start ≤ a → a < stop → attr s.mm.vmas a = none

theorem Ok.free_iff (h : s.Ok cfg) (hlt : start < stop) :
    s.Free start stop ↔ ∀ v ∈ s.mm.vmas.toList, v.stop ≤ start ∨ stop ≤ v.start := by
  have htree := h.mm.layout.tree
  constructor
  · intro hfree v hv
    by_contra hmeets
    have hne := (htree.valid v hv).nonempty
    have hnone := hfree (max start v.start) (le_max_left _ _) (by omega)
    exact (attr_eq_none_iff htree).mp hnone v hv ⟨le_max_right _ _, by omega⟩
  · intro hout a hle hlt
    rw [attr_eq_none_iff htree]
    rintro v hv ⟨hva, hav⟩
    have := hout v hv
    omega

/-- Where nothing is mapped there are no entries. -/
theorem Ok.pte_eq_none (h : s.Ok cfg) (hfree : s.Free start stop) (htop : stop ≤ ustackTop)
    {page : ℕ} (hpage : PageStarts start stop page) : s.pte page = none := by
  by_contra hne
  exact h.mapped page (hpage.2.trans_le htop) (Option.isSome_iff_ne_none.mpr hne)
    (hfree _ hpage.1 hpage.2)

/-! ### What a call changes -/

theorem Ok.unmapped (h : s.Ok cfg) (hs : Unmapped start stop s s') :
    s'.Ok cfg ∧ SameOutside start stop s s' ∧ s'.Free start stop := by
  obtain ⟨⟨t, startBrk, brk⟩, pte⟩ := s'
  obtain rfl : startBrk = _ := hs.startBrk
  obtain rfl : brk = _ := hs.brk
  refine ⟨⟨h.mm.of_old hs.tree hs.parts, fun page htop hpage => ?_⟩, ⟨fun a ha => ?_,
    fun page hp => hs.kept page fun hin => absurd hin hp⟩, fun a hle hlt => ?_⟩
  · obtain ⟨e, he⟩ := Option.isSome_iff_exists.mp hpage
    obtain ⟨hold, hattr⟩ := hs.entry he
    have hne := h.mapped page htop (Option.isSome_of_eq_some hold)
    exact ne_of_eq_of_ne (hattr hne) hne
  · exact (hs.attr a).trans (if_neg ha)
  · exact (hs.attr a).trans (if_pos ⟨hle, hlt⟩)

theorem Ok.setBrk (h : s.Ok cfg) (haddr : addr ≤ cfg.guardBottom) :
    (MapState.setBrk addr s).Ok cfg :=
  ⟨h.mm.setBrk haddr, h.mapped⟩

theorem Ok.insert (h : s.Ok cfg) (htree : TreeOk t)
    (hmem : ∀ w, w ∈ t.toList ↔ w = v ∨ w ∈ s.mm.vmas.toList)
    (hallowed : rangeAllowed cfg v.start v.stop) (hreadable : v.flags.Readable) :
    (s.setVmas t).Ok cfg ∧ SameOutside v.start v.stop s (s.setVmas t) := by
  have hold : ∀ a, attr s.mm.vmas a ≠ none → attr t a = attr s.mm.vmas a := by
    intro a ha
    rw [Ne, attr_eq_none_iff h.mm.layout.tree] at ha
    push Not at ha
    obtain ⟨w, hw, hcov⟩ := ha
    rw [attr_of_mem h.mm.layout.tree hw hcov, attr_of_mem htree ((hmem w).mpr (.inr hw)) hcov]
  refine ⟨⟨h.mm.insert htree hmem hallowed hreadable h.mm.brk, fun page htop hpage => ?_⟩,
    ⟨fun a ha => ?_, fun _ _ => rfl⟩⟩
  · have hne := h.mapped page htop hpage
    exact ne_of_eq_of_ne (hold _ hne) hne
  · by_cases hnone : attr s.mm.vmas a = none
    · rw [hnone]
      refine (attr_eq_none_iff htree).mpr fun w hw hcov => ?_
      rcases (hmem w).mp hw with rfl | hw
      · exact ha hcov
      · exact (attr_eq_none_iff h.mm.layout.tree).mp hnone w hw hcov
    · exact hold a hnone

theorem Ok.runs_unmapRange (h : s.Ok cfg) (hrange : RangeOk start stop) :
    (unmapRange rb ok start stop).Runs s (fun _ s' => s'.Ok cfg ∧ s'.mm.brk = s.mm.brk ∧
      SameOutside start stop s s' ∧ s'.Free start stop) fun _ s' => s' = s := by
  refine (MapState.runs_unmapRange h.mm.layout.tree hrange.lt hrange.start_aligned
    hrange.stop_aligned).mono (fun _ s' hs' => ?_) fun _ s' hs' => hs'.1
  obtain ⟨hok, hsame, hfree⟩ := h.unmapped hs'
  exact ⟨hok, hs'.brk, hsame, hfree⟩

/-! ### `mmap` and `munmap` -/

/-- The range is one new anonymous VMA without pages, and nothing else has changed. -/
structure Fresh (start stop prot : ℕ) (s s' : MapState ε) : Prop where
  vma : { start, stop, flags := vmProt prot } ∈ s'.mm.vmas.toList
  pte : ∀ page, PageStarts start stop page → s'.pte page = none
  same : SameOutside start stop s s'
  brk : s'.mm.brk = s.mm.brk

/-- The last step of `sys_mmap`, in a range that is free. -/
theorem Ok.runs_insert {prot : ℕ} (h : s'.Ok cfg) (hallowed : rangeAllowed cfg start stop)
    (hvalid : Vma.Valid { start, stop, flags := vmProt prot }) (hfree : s'.Free start stop)
    (hsame : SameOutside start stop s s') (hbrk : s'.mm.brk = s.mm.brk) :
    (onVmas (mustInsert rb { start, stop, flags := vmProt prot })).Runs s'
      (fun _ s'' => s''.Ok cfg ∧ Fresh start stop prot s s'') E := by
  refine .focus ((runs_mustInsert h.mm.layout.tree hvalid
    ((h.free_iff hvalid.nonempty).mp hfree)).mono ?_ fun _ _ => id)
  rintro _ t ⟨htree, hmem⟩
  obtain ⟨hok, houtside⟩ := h.insert htree hmem hallowed (readable_vmProt prot)
  have hrange := hallowed.1
  exact ⟨hok, (hmem _).mpr (.inl rfl), fun page => h.pte_eq_none hfree (by omega),
    hsame.trans houtside, hbrk⟩

theorem runs_sysMmap {prot flags offset : ℕ} (h : s.Ok cfg) :
    (sysMmap cfg rb ok addr len prot flags offset).Runs s
      (fun a s' => s'.Ok cfg ∧ (flags &&& mapFixed ≠ 0 → a = addr) ∧
        Fresh a (a + alignUp len pageSize) prot s s') fun _ s' => s' = s := by
  refine .get_bind (.check_bind (fun r hr => ?_) fun _ _ => rfl)
  obtain ⟨hreq, start, ⟨rfl, hfixed⟩ | ⟨rfl, rfl⟩⟩ := mmapRequest_eq_ok h.mm hr
  · obtain ⟨hvalid, hfree, -, -, -, -, hallowed⟩ := hreq
    refine .bind (h.runs_insert hallowed hvalid ((h.free_iff hvalid.nonempty).mpr hfree) .refl rfl)
      (fun _ s' hs' => .pure ?_) fun _ _ => id
    exact ⟨hs'.1, fun hne => absurd hfixed hne, hs'.2⟩
  · obtain ⟨hrange, -, -, -, -, hallowed⟩ := hreq
    have hserve : (serve rb ok (.unmap start (mmapVma start len prot).stop
        (.insert (mmapVma start len prot)))).Runs s
        (fun _ s' => s'.Ok cfg ∧ Fresh start (start + alignUp len pageSize) prot s s')
        fun _ s' => s' = s := by
      refine .bind (h.runs_unmapRange hrange) ?_ fun _ _ => id
      rintro _ s₁ ⟨hok, hbrk, hsame, hfree⟩
      exact hok.runs_insert hallowed (hrange.valid hallowed) hfree hsame hbrk
    exact .bind hserve (fun _ s' hs' => .pure ⟨hs'.1, fun _ => rfl, hs'.2⟩) fun _ _ => id

theorem runs_sysMunmap (h : TreeOk s.mm.vmas) : (sysMunmap cfg rb ok start len).Runs s
      (fun _ s' => ∃ stop, rangeEnd cfg start len = .ok stop ∧ Unmapped start stop s s')
      fun _ s' => s' = s := by
  refine .check_bind (fun r hr => ?_) fun _ _ => rfl
  obtain ⟨stop, hend, rfl⟩ := munmapRequest_eq_ok hr
  obtain ⟨hlt, hstart, hstop, -⟩ := rangeEnd_eq_ok hend
  refine .bind (MapState.runs_unmapRange h hlt hstart hstop) (fun _ s' hs' => .pure ?_)
    fun _ s' hs' => hs'.1
  exact ⟨stop, hend, hs'⟩

/-- What `sys_mprotect` leaves, whether or not it fails. -/
def Reprotected (start prot : ℕ) (s s' : MapState ε) : Prop :=
  s' = s ∨ ∃ stop t, Protected (vmProt prot) start stop s.mm.vmas t ∧ s' = s.setVmas t

theorem Reprotected.mmOk {prot : ℕ} (hs : Reprotected start prot s s') (h : MmOk cfg s.mm) :
    MmOk cfg s'.mm := by
  obtain rfl | ⟨stop, t, ht, rfl⟩ := hs
  · exact h
  · refine h.of_parts ht.tree ht.parts ?_ h.brk
    rintro f rfl
    exact readable_vmProt prot

theorem runs_sysMprotect {prot : ℕ} (h : TreeOk s.mm.vmas) :
    (sysMprotect cfg rb ok start len prot).Runs s (fun _ => Reprotected start prot s)
      fun _ => Reprotected start prot s := by
  refine .check_bind (fun r hr => ?_) fun _ _ => .inl rfl
  obtain rfl | ⟨stop, hrange, rfl⟩ := mprotectRequest_eq_ok hr
  · exact .pure (.inl rfl)
  · refine (runs_onVmas (runs_protectRange h hrange.lt hrange.start_aligned
      hrange.stop_aligned)).mono ?_ ?_
    · rintro _ _ ⟨t, ht, rfl⟩
      exact .inr ⟨stop, t, ht, rfl⟩
    · rintro e _ ⟨t, ⟨rfl, -⟩ | ⟨-, hole, -, -, -, ht⟩, rfl⟩
      · exact .inl rfl
      · exact .inr ⟨hole, t, ht, rfl⟩

/-! ### `brk` -/

/-- The change that `sys_brk` asks for, which leaves everything outside the rounded breaks. -/
theorem runs_brkRequest (h : s.Ok cfg) : (serve rb ok (brkRequest cfg s.mm addr)).Runs s
    (fun _ s' => s'.Ok cfg ∧ (s' = s ∨ s'.mm.brk = addr ∧ (addr = s.mm.brk → s' = s) ∧
      SameOutside (min (alignUp s.mm.brk pageSize) (alignUp addr pageSize))
        (max (alignUp s.mm.brk pageSize) (alignUp addr pageSize)) s s')) fun _ s' => s' = s := by
  have hreq := brkRequest_ok h.mm addr
  unfold brkRequest at hreq ⊢
  dsimp only at hreq ⊢
  split_ifs at hreq ⊢ with hbounds hgrow hbusy hshrink
  · exact .pure ⟨h, .inl rfl⟩
  · exact .pure ⟨h, .inl rfl⟩
  · obtain ⟨-, hstop, haddr⟩ := hreq
    have hne : addr ≠ s.mm.brk := by
      rintro rfl
      exact absurd hgrow (lt_irrefl _)
    rw [min_eq_left hgrow.le, max_eq_right hgrow.le]
    refine .bind (runs_onVmas (.tryModify (fun t ht => ht) fun e _ => Eq.refl s.mm.vmas)) ?_ ?_
    · rintro _ _ ⟨t, ht, rfl⟩
      obtain ⟨⟨t₁, v⟩, hmap, hret⟩ := exists_of_bind_eq_ok ht
      cases hret
      obtain ⟨rfl, hins⟩ := mapRange_eq_ok hmap
      obtain ⟨hvalid, htree, hmem⟩ := of_vmaInsert_eq_ok h.mm.layout.tree hins
      have hallowed : rangeAllowed cfg (alignUp s.mm.brk pageSize) (alignUp addr pageSize) := by
        have hlower := hvalid.lower
        have hcfg := cfg.bottoms
        refine ⟨?_, .inl hstop⟩
        rw [ustackTop_eq]
        dsimp only at hlower
        omega
      obtain ⟨hok, hsame⟩ := h.insert htree hmem hallowed fun _ => rfl
      exact ⟨hok.setBrk haddr, .inr ⟨rfl, fun heq => absurd heq hne, hsame.attr, hsame.pte⟩⟩
    · rintro e _ ⟨t, rfl, rfl⟩
      rfl
  · obtain ⟨hrange, haddr⟩ := hreq
    have hne : addr ≠ s.mm.brk := by
      rintro rfl
      exact absurd hshrink (lt_irrefl _)
    rw [min_eq_right hshrink.le, max_eq_left hshrink.le]
    refine .bind (h.runs_unmapRange hrange) ?_ fun _ _ => id
    rintro _ s' ⟨hok, -, hsame, -⟩
    exact ⟨hok.setBrk haddr, .inr ⟨rfl, fun heq => absurd heq hne, hsame.attr, hsame.pte⟩⟩
  · refine ⟨h.setBrk hreq, .inr ⟨rfl, ?_, fun _ _ => rfl, fun _ _ => rfl⟩⟩
    rintro rfl
    rfl

/-- `sys_brk` returns the break: the new one, or the old one and then nothing has changed. -/
theorem runs_sysBrk (h : s.Ok cfg) : (sysBrk cfg rb ok addr).Runs s
    (fun r s' => s'.Ok cfg ∧ r = s'.mm.brk ∧ (r = s.mm.brk → s' = s) ∧ (r ≠ s.mm.brk → r = addr ∧
      SameOutside (min (alignUp s.mm.brk pageSize) (alignUp addr pageSize))
        (max (alignUp s.mm.brk pageSize) (alignUp addr pageSize)) s s')) fun _ _ => False := by
  refine .get_bind (.attempt_bind ((runs_brkRequest h).mono ?_ ?_))
  · rintro _ s' ⟨hok, rfl | ⟨hbrk, hsame, hout⟩⟩
    · exact ⟨hok, rfl, fun _ => rfl, fun hne => absurd rfl hne⟩
    · exact ⟨hok, rfl, fun heq => hsame (hbrk.symm.trans heq), fun _ => ⟨hbrk, hout⟩⟩
  · rintro e _ rfl
    exact ⟨h, rfl, fun _ => rfl, fun hne => absurd rfl hne⟩

/-- **Mapping calls.** Whatever the address space, the arguments and the results of the
allocations, a call that fails leaves the address space as it was. A range that `sys_mmap` has
mapped is one new VMA, and `sys_brk` changes nothing outside the rounded breaks. -/
theorem runs_mapCalls (rb : Rebalance Vma) (ok : ℕ → Bool) (h : s.Ok cfg) :
    (∀ addr len prot flags offset, (sysMmap cfg rb ok addr len prot flags offset).Runs s
      (fun a s' => s'.Ok cfg ∧ (flags &&& mapFixed ≠ 0 → a = addr) ∧
        Fresh a (a + alignUp len pageSize) prot s s') fun _ s' => s' = s) ∧
    (∀ start len, (sysMunmap cfg rb ok start len).Runs s
      (fun _ s' => s'.Ok cfg ∧ s'.mm.brk = s.mm.brk ∧ ∃ stop, rangeEnd cfg start len = .ok stop ∧
        SameOutside start stop s s' ∧ s'.Free start stop) fun _ s' => s' = s) ∧
    ∀ addr, (sysBrk cfg rb ok addr).Runs s
      (fun r s' => s'.Ok cfg ∧ r = s'.mm.brk ∧ (r = s.mm.brk → s' = s) ∧ (r ≠ s.mm.brk → r = addr ∧
        SameOutside (min (alignUp s.mm.brk pageSize) (alignUp addr pageSize))
          (max (alignUp s.mm.brk pageSize) (alignUp addr pageSize)) s s')) fun _ _ => False := by
  refine ⟨fun _ _ _ _ _ => runs_sysMmap h, fun start len => ?_, fun _ => runs_sysBrk h⟩
  refine (runs_sysMunmap h.mm.layout.tree).mono ?_ fun _ _ => id
  rintro _ s' ⟨stop, hend, hs'⟩
  obtain ⟨hok, hsame, hfree⟩ := h.unmapped hs'
  exact ⟨hok, hs'.brk, stop, hend, hsame, hfree⟩

/-- A file mapped over four pages, the second of which is present, and the trampoline. -/
def oneFile : MapState Unit where
  mm := ⟨.node true .nil fileVma .nil, 0, 0⟩
  pte page := if page = 0x11 ∨ page = userTrampoline / pageSize then some () else none

theorem oneFile_ok : oneFile.Ok ⟨16, by decide⟩ := by
  have hmem : ∀ v ∈ oneFile.mm.vmas.toList, v = fileVma := fun v => List.mem_singleton.mp
  refine ⟨⟨⟨⟨by decide, fun v hv => ?_⟩, fun v hv => ?_, fun v hv => ?_⟩, fun v hv => ?_,
    by decide⟩, fun page htop hpage => ?_⟩
  · rw [hmem v hv]
    exact ⟨by decide, by decide, by decide, by decide, by decide⟩
  · rw [hmem v hv]
    exact .inl (by decide)
  · rw [hmem v hv]
    decide
  · rw [hmem v hv]
    exact fun _ => rfl
  · have hor : page = 0x11 ∨ page = userTrampoline / pageSize := by
      by_contra hne
      simp [oneFile, hne] at hpage
    rcases hor with rfl | rfl
    · decide
    · exact absurd htop (by decide)

/-- A fixed mapping inside the file needs two parts of it. Without memory for the second one nothing
changes; with it, the page is gone. -/
theorem runs_mapCalls_oneFile :
    (∃ s', sysMmap ⟨16, by decide⟩ .plain (fun n => n ≠ 2) 0x11000 0x1000 1 0x32 0 oneFile =
      (.err .enomem, s') ∧ s' = oneFile) ∧
    ∃ s', sysMmap ⟨16, by decide⟩ .plain (fun _ => true) 0x11000 0x1000 1 0x32 0 oneFile =
      (.ok 0x11000, s') ∧ s'.pte 0x11 = none := by
  have hfails := runs_mapCalls .plain (fun n => n ≠ 2) oneFile_ok
  have hmaps := runs_mapCalls .plain (fun _ => true) oneFile_ok
  constructor
  · refine ⟨_, Prod.ext (by decide +kernel) rfl, ?_⟩
    exact (hfails.1 0x11000 0x1000 1 0x32 0).of_eq.2 .enomem (Prod.ext (by decide +kernel) rfl)
  · refine ⟨_, Prod.ext (by decide +kernel) rfl, ?_⟩
    have hfresh := (hmaps.1 0x11000 0x1000 1 0x32 0).of_eq.1 0x11000
      (Prod.ext (by decide +kernel) rfl)
    exact hfresh.2.2.pte 0x11 (by decide)

/-! ### Taking a mapping back -/

end MapState

end Nuvix
