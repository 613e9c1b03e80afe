import SiStultum.PageMap.Refinement

/-!
# Running out of frames while mapping

`pmm_map_memory` does not look at the answer of `ppa_request`. `descend_trace` says that each
answer, 0 included, is cleared as a page and linked as a table, and `exhausted_map_harmful`
draws the consequence: no call in which a request fails is harmless.
-/

namespace SiStultum

/-- One of the `n` bytes from `addr` on is in page 0. -/
def TouchesPageZero (addr : BitVec 64) (n : Nat) : Prop :=
  ∃ k < n, (addr + BitVec.ofNat 64 k).toNat < 4096

/-- An event that writes to page 0. -/
def PmmEvent.WritesPageZero : PmmEvent → Prop
  | .request _ => False
  | .memset dest len => TouchesPageZero dest len.toNat
  | .store table index _ => TouchesPageZero (table + 8 * index) 8

/-- An event that installs a present entry for frame 0. -/
def PmmEvent.InstallsNull : PmmEvent → Prop
  | .store _ _ pde => pmmFlagGet pde pdeP = true ∧ pmmAddrGet pde = 0
  | _ => False

variable {σ : Type*}

/-- The events between two states. -/
def newEvents (before after : PmmState σ) : List PmmEvent :=
  after.trace.drop before.trace.length

/-- A call that does no damage: every translation is kept, no present entry for frame 0 is installed
and nothing is written to page 0. -/
structure Harmless (before after : PmmState σ) : Prop where
  translations : ∀ vaddr, pmmFindPaddr after vaddr = pmmFindPaddr before vaddr
  no_null_entry : ∀ event ∈ newEvents before after, ¬ event.InstallsNull
  page_zero : ∀ event ∈ newEvents before after, ¬ event.WritesPageZero

/-- Every frame that was answered has been cleared and linked. -/
def AnswersLinked (events : List PmmEvent) : Prop :=
  ∀ frame, .request frame ∈ events → .memset frame 4096 ∈ events ∧
    ∃ table index pde, .store table index pde ∈ events ∧ pmmFlagGet pde pdeP = true ∧
      pmmAddrGet pde = frameField frame >>> 12

/-- The answers of two lists of events. -/
theorem AnswersLinked.append {first second : List PmmEvent} (hfirst : AnswersLinked first)
    (hsecond : AnswersLinked second) : AnswersLinked (first ++ second) := by
  intro frame hframe
  rcases List.mem_append.mp hframe with hleft | hright
  · obtain ⟨hclear, table, index, pde, hstore, hlinked⟩ := hfirst frame hleft
    exact ⟨List.mem_append_left second hclear, table, index, pde,
      List.mem_append_left second hstore, hlinked⟩
  · obtain ⟨hclear, table, index, pde, hstore, hlinked⟩ := hsecond frame hright
    exact ⟨List.mem_append_right first hclear, table, index, pde,
      List.mem_append_right first hstore, hlinked⟩

/-- Whatever an entry held before, it is present and points to the frame it is linked to. -/
theorem flag_get_linked (pde : PageDirectoryEntry) (frame : BitVec 64) :
    pmmFlagGet (pmmFlagSet (pmmAddrSet pde (frame >>> 12)) (pdeP ||| pdeRW) 1) pdeP = true := by
  rw [pmmFlagGet, beq_iff_eq, pmmFlagSet, if_pos (by decide)]
  apply BitVec.eq_of_getLsbD_eq
  intro i hi
  have hflags : ∀ j < 64, (pdeP.setWidth 64).getLsbD j = true →
      ((pdeP ||| pdeRW).setWidth 64).getLsbD j = true := by decide
  rw [BitVec.getLsbD_and, BitVec.getLsbD_or]
  cases hflag : (pdeP.setWidth 64).getLsbD i with
  | true => rw [hflags i hi hflag, Bool.or_true, Bool.true_and]
  | false => rw [Bool.and_false]

/-- An entry that has been linked refers to the frame. -/
theorem addr_get_linked (pde : PageDirectoryEntry) (frame : BitVec 64) :
    pmmAddrGet (pmmFlagSet (pmmAddrSet pde (frame >>> 12)) (pdeP ||| pdeRW) 1) =
      frameField frame >>> 12 := by
  have hflags : (pdeP ||| pdeRW).setWidth 64 = 3#64 := by decide
  rw [pmmFlagSet, if_pos (by decide), hflags, pmmAddrGet]
  congr 1
  apply BitVec.eq_of_getLsbD_eq
  intro i hi
  rw [BitVec.getLsbD_and, BitVec.getLsbD_or, present_mask_bit i hi, frame_mask_bit i hi,
    frame_field_bit frame hi, pmmAddrSet, BitVec.getLsbD_or, BitVec.getLsbD_and,
    flags_mask_bit i hi, BitVec.getLsbD_shiftLeft, BitVec.getLsbD_and,
    BitVec.getLsbD_ushiftRight]
  by_cases hfield : 12 ≤ i ∧ i < 52
  · rw [show 12 + (i - 12) = i by omega, frame_number_mask_bit (i - 12) (by omega)]
    have hlow : ¬ i < 12 := by omega
    have hhigh : ¬ 52 ≤ i := by omega
    have hflag : ¬ i < 2 := by omega
    have hnumber : i - 12 < 40 := by omega
    simp [hfield, hlow, hhigh, hflag, hnumber, hi]
  · have hout : (decide (12 ≤ i) && decide (i < 52)) = false := by
      rw [← Bool.decide_and, decide_eq_false hfield]
    rw [hout, Bool.and_false, Bool.and_false]

/-- The events of one level: nothing when the table exists, and else the request, the clearing and
the link. -/
theorem descend_trace (request : σ → BitVec 64 × σ) (s : PmmState σ) (table index : BitVec 64) :
    ∃ events, (pmmDescend request s table index).2.trace = s.trace ++ events ∧
      AnswersLinked events := by
  obtain ⟨-, hdescend⟩ | ⟨-, frame, ppa, linked, -, hlinked, hdescend⟩ :=
    pmm_descend_cases request s table index
  · refine ⟨[], by rw [hdescend, List.append_nil], ?_⟩
    intro frame hframe
    cases hframe
  · refine ⟨[.request frame, .memset frame 4096, .store table index linked], by rw [hdescend], ?_⟩
    intro answer hanswer
    obtain rfl : answer = frame := by simpa using hanswer
    refine ⟨by simp, table, index, linked, by simp, ?_, ?_⟩
    · rw [hlinked, flag_get_linked]
    · rw [hlinked, addr_get_linked]

/-- The events of a call after those of its first level. -/
theorem map_trace (request : σ → BitVec 64 × σ) (s : PmmState σ) (vaddr paddr : BitVec 64) :
    ∃ rest, (pmmMapMemory request s vaddr paddr).trace =
        (pmmPdp request s vaddr).2.trace ++ rest ∧ AnswersLinked rest := by
  obtain ⟨second, hsecond, hlinked2⟩ := descend_trace request (pmmPdp request s vaddr).2
    (pmmPdp request s vaddr).1 (pmmIndex vaddr 30)
  obtain ⟨third, hthird, hlinked3⟩ := descend_trace request (pmmPd request s vaddr).2
    (pmmPd request s vaddr).1 (pmmIndex vaddr 21)
  rw [map_eq_set_leaf, pmmSetLeaf]
  generalize pmmFlagSet _ _ _ = mapped
  refine ⟨second ++ third ++ [.store (pmmPt request s vaddr).1 (pmmIndex vaddr 12) mapped],
    ?_, (hlinked2.append hlinked3).append ?_⟩
  · rw [pmmPt, hthird, pmmPd, hsecond]
    simp only [List.append_assoc]
  · intro frame hframe
    simp at hframe

/-- A mapping links each answer that it has got. -/
theorem new_events_map (request : σ → BitVec 64 × σ) (s : PmmState σ) (vaddr paddr : BitVec 64) :
    AnswersLinked (newEvents s (pmmMapMemory request s vaddr paddr)) := by
  obtain ⟨first, hfirst, hlinked1⟩ := descend_trace request s s.pml4 (pmmIndex vaddr 39)
  obtain ⟨rest, hrest, hlinked⟩ := map_trace request s vaddr paddr
  rw [newEvents, hrest, pmmPdp, hfirst, List.append_assoc, List.drop_left]
  exact hlinked1.append hlinked

/-- A call for an address whose first entry is not present makes a request. -/
theorem map_requests_pdp (request : σ → BitVec 64 × σ) (s : PmmState σ) (vaddr paddr : BitVec 64)
    (habsent : pmmFlagGet (tableEntry s.mem s.pml4 (pmmIndex vaddr 39)) pdeP = false) :
    .request (request s.ppa).1 ∈ newEvents s (pmmMapMemory request s vaddr paddr) := by
  obtain ⟨hpresent, -⟩ | ⟨-, frame, ppa, linked, hrequest, -, hdescend⟩ :=
    pmm_descend_cases request s s.pml4 (pmmIndex vaddr 39)
  · rw [habsent] at hpresent
    cases hpresent
  · obtain ⟨rest, hrest, -⟩ := map_trace request s vaddr paddr
    rw [newEvents, hrest, pmmPdp, hdescend, List.append_assoc, List.drop_left, hrequest]
    simp

/-- An answer of 0 is cleared as page 0 and linked as frame 0. -/
theorem null_answer_harm {events : List PmmEvent} (h : AnswersLinked events)
    (hfail : .request 0 ∈ events) :
    (∃ event ∈ events, event.InstallsNull) ∧ ∃ event ∈ events, event.WritesPageZero := by
  obtain ⟨hclear, table, index, pde, hstore, hpresent, haddr⟩ := h 0 hfail
  refine ⟨⟨_, hstore, hpresent, haddr.trans (by decide)⟩, _, hclear, 0, by decide, by decide⟩

/-- A call of `pmm_map_memory` in which one of the requests returns 0 is never harmless, in any
state: it installs a present entry for frame 0 and it writes to page 0. -/
theorem exhausted_map_harmful (request : σ → BitVec 64 × σ) (s : PmmState σ)
    (vaddr paddr : BitVec 64)
    (hfail : .request 0 ∈ newEvents s (pmmMapMemory request s vaddr paddr)) :
    ¬ Harmless s (pmmMapMemory request s vaddr paddr) ∧
      (∃ event ∈ newEvents s (pmmMapMemory request s vaddr paddr), event.InstallsNull) ∧
      ∃ event ∈ newEvents s (pmmMapMemory request s vaddr paddr), event.WritesPageZero := by
  have hharm := null_answer_harm (new_events_map request s vaddr paddr) hfail
  refine ⟨?_, hharm⟩
  intro hharmless
  obtain ⟨event, hevent, hnull⟩ := hharm.1
  exact hharmless.no_null_entry event hevent hnull

/-! ## An exhausted allocator -/

/-- The allocator has no frame left. -/
def exhaustedRequest (u : Unit) : BitVec 64 × Unit :=
  (0, u)

/-- A zeroed root table at 0x1000 and no frame left. -/
def exhaustedStart : PmmState Unit :=
  pmmReach exhaustedRequest (fun _ => 0) () 0x1000 []

/-- A request that fails during a mapping. -/
theorem exhausted_start_fails (vaddr paddr : BitVec 64) :
    .request 0 ∈
      newEvents exhaustedStart (pmmMapMemory exhaustedRequest exhaustedStart vaddr paddr) := by
  refine map_requests_pdp exhaustedRequest exhaustedStart vaddr paddr ?_
  exact (congrArg (pmmFlagGet · pdeP) (table_entry_zeroed 0x1000 _)).trans flag_get_zero

/-- The failing call for a page of the first table. -/
theorem exhausted_map_harmful_start :
    ¬ Harmless exhaustedStart
        (pmmMapMemory exhaustedRequest exhaustedStart 0x600000 0x80000) ∧
      (∃ event ∈ newEvents exhaustedStart
        (pmmMapMemory exhaustedRequest exhaustedStart 0x600000 0x80000), event.InstallsNull) ∧
      ∃ event ∈ newEvents exhaustedStart
        (pmmMapMemory exhaustedRequest exhaustedStart 0x600000 0x80000), event.WritesPageZero :=
  exhausted_map_harmful exhaustedRequest exhaustedStart 0x600000 0x80000
    (exhausted_start_fails 0x600000 0x80000)

/-- The first call on an empty table with no frame left: its request fails and it does damage. -/
theorem map_failure_not_harmless :
    .request 0 ∈ newEvents exhaustedStart
        (pmmMapMemory exhaustedRequest exhaustedStart 0x600000 0x80000) ∧
      ¬ Harmless exhaustedStart
        (pmmMapMemory exhaustedRequest exhaustedStart 0x600000 0x80000) := by
  have hfail := exhausted_start_fails 0x600000 0x80000
  refine ⟨hfail, ?_⟩
  intro hharmless
  obtain ⟨event, hevent, hzero⟩ := (null_answer_harm
    (new_events_map exhaustedRequest exhaustedStart 0x600000 0x80000) hfail).2
  exact hharmless.page_zero event hevent hzero

end SiStultum
