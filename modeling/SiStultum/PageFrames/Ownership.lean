import SiStultum.Library.Ownership
import SiStultum.PageFrames.Init

/-!
# Exclusive ownership of frames

The allocator refines the abstract allocator of `Library.Ownership`: `taken s` is the set
of tracked frames whose bit is set, `ppaAction s op` is what the call `op` does to it,
and `taken_ppa_step` says the two agree. A frame taken by a request, a lock or a
reservation therefore belongs to its taker until a call that covers it gives it back.
-/

namespace SiStultum

open PpaState Ownership

/-- The tracked frames whose bit is set. -/
def taken (s : PpaState) : Set Nat :=
  { i | s.Tracked i ∧ s.bit i = true }

/-- The request returns frame `i`. The address 0 is the answer of a request that fails. -/
def Returns (s : PpaState) (i : Nat) : Prop :=
  (ppaRequest s).1 ≠ 0 ∧ (ppaRequest s).1.toNat = 4096 * i

namespace PpaOp

/-- The frames a call locks or reserves. -/
def acquired : PpaOp → Set Nat
  | .lck addr | .rsv addr => { frameOf addr }
  | .lckn addr n | .rsvn addr n => { i | frameOf addr ≤ i ∧ i < frameOf addr + n.toNat }
  | _ => ∅

/-- The frames a call unlocks or unreserves. -/
def released : PpaOp → Set Nat
  | .ulck addr | .ursv addr => { frameOf addr }
  | .ulckn addr n | .ursvn addr n => { i | frameOf addr ≤ i ∧ i < frameOf addr + n.toNat }
  | _ => ∅

/-- A ranged call covers fewer than `2 ^ 19` frames and does not wrap past `2 ^ 64`. -/
def Bounded : PpaOp → Prop
  | .lckn addr n | .ulckn addr n | .rsvn addr n | .ursvn addr n =>
      n.toNat < 2 ^ 19 ∧ addr.toNat + 4096 * n.toNat ≤ 2 ^ 64
  | _ => True

end PpaOp

open Classical in
/-- What a call does to the set of taken frames. -/
noncomputable def ppaAction (s : PpaState) (op : PpaOp) : Action Nat :=
  match op with
  | .request => if s.FreeAtHint then .allocate ((ppaRequest s).1.toNat / 4096) else .skip
  | .lck _ | .lckn _ _ | .rsv _ | .rsvn _ _ => .acquire (op.acquired ∩ { i | s.Tracked i })
  | .ulck _ | .ulckn _ _ | .ursv _ | .ursvn _ _ => .release op.released

/-- What the calls of a run do, one after the other. -/
noncomputable def ppaActions (s : PpaState) : List PpaOp → List (Action Nat)
  | [] => []
  | op :: ops => ppaAction s op :: ppaActions (ppaStep s op) ops

variable {s : PpaState}

/-- A call keeps the frames that are tracked. -/
theorem tracked_ppa_step (op : PpaOp) (i : Nat) : (ppaStep s op).Tracked i ↔ s.Tracked i :=
  tracked_of_fixed (ppa_step_fixed s op) i

/-- A range of a bounded call is the interval of its frames. -/
theorem covers_of_bounded {addr n : BitVec 64}
    (h : n.toNat < 2 ^ 19 ∧ addr.toNat + 4096 * n.toNat ≤ 2 ^ 64) (i : Nat) :
    Covers addr n.toNat i ↔ frameOf addr ≤ i ∧ i < frameOf addr + n.toNat :=
  covers_iff_of_no_wrap h.2 i

/-- A request takes the frame the abstract allocator allocates, and none when there is none. -/
theorem taken_ppa_request (hsized : s.Sized) :
    taken (ppaRequest s).2 = (ppaAction s .request).apply (taken s) := by
  have hfixed := ppa_request_fixed (s := s)
  obtain ⟨hfull, h⟩ | ⟨hfree, index, htracked, _, _, _, haddr, hstate⟩ |
    ⟨_, hnotfree, index, _, _, _, hstate⟩ := ppa_request_cases hsized
  · simp [ppaAction, hfull.not_free, Action.apply, h]
  · have hframe : (ppaRequest s).1.toNat / 4096 = index.toNat := by omega
    ext i
    simp only [ppaAction, hfree, ↓reduceIte, hframe, Action.apply, taken, Set.mem_ofPred_eq,
      Set.mem_insert_iff, tracked_of_fixed hfixed]
    rw [hstate, charge_bit, bit_ppa_bitmap_set]
    by_cases hi : i = index.toNat
    · subst hi
      have hset : PpaState.Tracked { s with lastHit := index } index.toNat := htracked
      simp [htracked, hset]
    · simp only [hi, and_false, ↓reduceIte, false_or]
      rfl
  · ext i
    simp only [ppaAction, hnotfree, ↓reduceIte, Action.apply, taken, Set.mem_ofPred_eq,
      tracked_of_fixed hfixed]
    rw [hstate, charge_bit]
    rfl

/-- Locking or reserving a frame takes it, if it is tracked. -/
theorem taken_acquire (account : Account) (addr : BitVec 64) :
    taken (acquire account s addr) = taken s ∪ ({ frameOf addr } ∩ { i | s.Tracked i }) := by
  ext i
  simp only [taken, Set.mem_ofPred_eq, Set.mem_union, Set.mem_inter_iff, Set.mem_singleton_iff,
    tracked_of_fixed acquire_fixed, bit_acquire]
  tauto

/-- Locking or reserving a range takes its tracked frames. -/
theorem taken_acquire_n (account : Account) {addr n : BitVec 64}
    (h : n.toNat < 2 ^ 19 ∧ addr.toNat + 4096 * n.toNat ≤ 2 ^ 64) :
    taken (acquireN account s addr n) =
      taken s ∪ ({ i | frameOf addr ≤ i ∧ i < frameOf addr + n.toNat } ∩ { i | s.Tracked i }) := by
  ext i
  simp only [taken, acquireN, Set.mem_ofPred_eq, Set.mem_union, Set.mem_inter_iff,
    tracked_of_fixed (acquire_loop_fixed _), bit_acquire_loop, covers_of_bounded h]
  tauto

/-- Unlocking or unreserving a frame gives it back. -/
theorem taken_release (account : Account) (addr : BitVec 64) :
    taken (release account s addr) = taken s \ { frameOf addr } := by
  ext i
  simp only [taken, Set.mem_ofPred_eq, Set.mem_sdiff, Set.mem_singleton_iff,
    tracked_of_fixed release_fixed, bit_release]
  tauto

/-- Unlocking or unreserving a range gives its frames back. -/
theorem taken_release_n (account : Account) {addr n : BitVec 64}
    (h : n.toNat < 2 ^ 19 ∧ addr.toNat + 4096 * n.toNat ≤ 2 ^ 64) :
    taken (s.proceed (releaseN account s addr n)) =
      taken s \ { i | frameOf addr ≤ i ∧ i < frameOf addr + n.toNat } := by
  ext i
  simp only [taken, Set.mem_ofPred_eq, Set.mem_sdiff, tracked_of_fixed release_n_fixed,
    bit_release_n (Nat.le_of_lt h.1), covers_of_bounded h]
  tauto

/-- The allocator refines the abstract allocator, call by call. -/
theorem taken_ppa_step (hsized : s.Sized) {op : PpaOp} (hbounded : op.Bounded) :
    taken (ppaStep s op) = (ppaAction s op).apply (taken s) := by
  cases op with
  | lck addr => exact taken_acquire .used addr
  | lckn addr n => exact taken_acquire_n .used hbounded
  | ulck addr => exact taken_release .used addr
  | ulckn addr n => exact taken_release_n .used hbounded
  | rsv addr => exact taken_acquire .rsvd addr
  | rsvn addr n => exact taken_acquire_n .rsvd hbounded
  | ursv addr => exact taken_release .rsvd addr
  | ursvn addr n => exact taken_release_n .rsvd hbounded
  | request => exact taken_ppa_request hsized

/-- What the allocator allocates was not taken. -/
theorem ppa_action_enabled (hsized : s.Sized) (op : PpaOp) :
    (ppaAction s op).Enabled (taken s) := by
  cases op with
  | request =>
      obtain ⟨hfull, h⟩ | ⟨hfree, index, htracked, hclear, _, _, haddr, _⟩ |
        ⟨_, hnotfree, _⟩ := ppa_request_cases hsized
      · simp [ppaAction, hfull.not_free, Action.Enabled]
      · have hframe : (ppaRequest s).1.toNat / 4096 = index.toNat := by omega
        simp [ppaAction, hfree, hframe, Action.Enabled, taken, hclear]
      · simp [ppaAction, hnotfree, Action.Enabled]
  | _ => trivial

/-- The allocator refines the abstract allocator over whole runs. -/
theorem taken_ppa_run (hsized : s.Sized) {ops : List PpaOp} (hbounded : ∀ op ∈ ops, op.Bounded) :
    taken (Runs.run ppaStep s ops) = Runs.run Action.apply (taken s) (ppaActions s ops) := by
  induction ops generalizing s with
  | nil => rfl
  | cons op ops ih =>
      rw [Runs.run_cons,
        ih (sized_ppa_step hsized op) (fun other h => hbounded other (by simp [h])), ppaActions,
        Runs.run_cons, taken_ppa_step hsized (hbounded op (by simp))]

/-- A run releases a frame only through a call that covers it. -/
theorem not_releases_of_not_released {ops : List PpaOp} {i : Nat}
    (h : ∀ op ∈ ops, i ∉ op.released) : ∀ action ∈ ppaActions s ops, ¬ action.Releases i := by
  induction ops generalizing s with
  | nil => simp [ppaActions]
  | cons op ops ih =>
      have hop := h op (by simp)
      rintro action haction
      rw [ppaActions, List.mem_cons] at haction
      obtain rfl | haction := haction
      · cases op with
        | request =>
            by_cases hfree : s.FreeAtHint <;> simp [ppaAction, hfree, Action.Releases]
        | ulck addr | ulckn addr n | ursv addr | ursvn addr n => exact hop
        | _ => exact id
      · exact ih (fun other hmem => h other (by simp [hmem])) action haction

/-- The frame a request returns was free before the call and is taken after it. -/
theorem returned_frame_fresh (hsized : s.Sized) {i : Nat} (htracked : s.Tracked i)
    (h : Returns s i) : s.bit i = false ∧ (ppaRequest s).2.bit i = true := by
  obtain ⟨_, hfail⟩ | ⟨_, index, hindex, hclear, _, _, haddr, hstate⟩ |
    ⟨_, _, index, huntracked, _, haddr, _⟩ := ppa_request_cases hsized
  · exact absurd (by rw [hfail]) h.1
  · obtain rfl : i = index.toNat := by
      have hreturned := h.2
      omega
    refine ⟨hclear, ?_⟩
    have hset : PpaState.Tracked { s with lastHit := index } index.toNat := hindex
    rw [hstate, charge_bit, bit_ppa_bitmap_set]
    simp [hset]
  · obtain rfl : i = index.toNat := by
      have hreturned := h.2
      omega
    exact absurd htracked huntracked

/-- The call takes frame `i` for its caller. -/
def Takes (s : PpaState) (op : PpaOp) (i : Nat) : Prop :=
  (op = .request ∧ Returns s i) ∨ i ∈ op.acquired

/-- Exclusive ownership of the tracked frames in one state and everything that follows it. -/
structure ExclusiveOwnership (s : PpaState) : Prop where
  /-- A frame that a request returns was free and is taken afterwards. -/
  fresh : ∀ i, s.Tracked i → Returns s i → s.bit i = false ∧ (ppaRequest s).2.bit i = true
  /-- A frame taken by a call is not returned again until a call that covers it releases it. -/
  kept : ∀ i op later, s.Tracked i → op.Bounded → Takes s op i →
    (∀ other ∈ later, other.Bounded ∧ i ∉ other.released) →
    ¬ Returns (Runs.run ppaStep (ppaStep s op) later) i
  /-- A call on other frames leaves the bit of a frame as it was. A request is on the frame that it
  finds, which for frame 0 its result does not tell from a failure. -/
  frame : ∀ i op, s.Tracked i → op.Bounded → i ∉ op.acquired → i ∉ op.released →
    (op = .request → ∀ index, ppaScan s = some index → index.toNat ≠ i) →
      (ppaStep s op).bit i = s.bit i

/-- A taken frame is still taken after a run that does not release it. -/
theorem taken_of_not_released (hsized : s.Sized) {i : Nat} (htaken : i ∈ taken s)
    {ops : List PpaOp} (h : ∀ op ∈ ops, op.Bounded ∧ i ∉ op.released) :
    i ∈ taken (Runs.run ppaStep s ops) := by
  rw [taken_ppa_run hsized (fun op hop => (h op hop).1)]
  exact run_keeps htaken (not_releases_of_not_released (fun op hop => (h op hop).2))

/-- The call that takes a frame sets its bit. -/
theorem taken_of_takes (hsized : s.Sized) {op : PpaOp} (hbounded : op.Bounded) {i : Nat}
    (htracked : s.Tracked i) (h : Takes s op i) : i ∈ taken (ppaStep s op) := by
  obtain ⟨rfl, hreturns⟩ | hacquired := h
  · exact ⟨(tracked_ppa_step _ i).mpr htracked, (returned_frame_fresh hsized htracked hreturns).2⟩
  · rw [taken_ppa_step hsized hbounded]
    cases op with
    | lck addr | lckn addr n | rsv addr | rsvn addr n => exact .inr ⟨hacquired, htracked⟩
    | _ => exact absurd hacquired (Set.notMem_empty i)

/-- When a free frame is in its way, a request finds a frame and returns it. -/
theorem scan_of_free_at_hint (hsized : s.Sized) (hfree : s.FreeAtHint) :
    ∃ index, ppaScan s = some index ∧ (ppaRequest s).1.toNat / 4096 = index.toNat := by
  cases hscan : ppaScan s with
  | none =>
      have hfull : s.FullAtHint := (scan_eq_none_iff hsized.indexed).mp hscan
      exact absurd hfree hfull.not_free
  | some index =>
      obtain ⟨_, hend, _⟩ := scan_eq_some hsized.indexed hscan
      refine ⟨index, rfl, ?_⟩
      rw [(ppa_request_found hscan).1]
      exact (frame_of_index hsized hend).2

/-- A call changes the bits of the frames it is about only. -/
theorem bit_of_untouched (hsized : s.Sized) {op : PpaOp} (hbounded : op.Bounded) {i : Nat}
    (htracked : s.Tracked i) (hacquired : i ∉ op.acquired) (hreleased : i ∉ op.released)
    (hfound : op = .request → ∀ index, ppaScan s = some index → index.toNat ≠ i) :
    (ppaStep s op).bit i = s.bit i := by
  have hmentions : ¬ (ppaAction s op).Mentions i := by
    cases op with
    | request =>
        by_cases hfree : s.FreeAtHint
        · obtain ⟨index, hscan, hframe⟩ := scan_of_free_at_hint hsized hfree
          have hne := hfound rfl index hscan
          simp only [ppaAction, hfree, ↓reduceIte, Action.Mentions]
          omega
        · simp [ppaAction, hfree, Action.Mentions]
    | lck addr | lckn addr n | rsv addr | rsvn addr n => exact fun hmem => hacquired hmem.1
    | ulck addr | ulckn addr n | ursv addr | ursvn addr n => exact hreleased
  have hmem := Action.mem_apply_of_not_mentions (taken s) hmentions
  rw [← taken_ppa_step hsized hbounded] at hmem
  simp only [taken, Set.mem_ofPred_eq, tracked_ppa_step, htracked, true_and] at hmem
  exact Bool.eq_iff_iff.mpr hmem

/-- Every state with a bitmap of at most `2 ^ 52` bits gives exclusive ownership. -/
theorem PpaState.Sized.exclusive (hsized : s.Sized) : ExclusiveOwnership s where
  fresh i htracked h := returned_frame_fresh hsized htracked h
  kept i op later htracked hbounded htakes hlater hreturns := by
    have hstep := sized_ppa_step hsized op
    have hafter := taken_of_not_released hstep
      (taken_of_takes hsized hbounded htracked htakes) hlater
    have hsizedLater : (Runs.run ppaStep (ppaStep s op) later).Sized :=
      Runs.run_invariant Sized (fun t other ht => sized_ppa_step ht other) hstep later
    have hfree := (returned_frame_fresh hsizedLater hafter.1 hreturns).1
    rw [hafter.2] at hfree
    cases hfree
  frame i op htracked hbounded hacquired hreleased hfound :=
    bit_of_untouched hsized hbounded htracked hacquired hreleased hfound

/-- Every state reached from `ppa_init`, whatever the map, by calls of any kind gives exclusive
ownership of its tracked frames. -/
theorem frames_exclusively_owned (words : Nat → BitVec 32)
    (mmap reread : List EfiMemoryDescriptor) (ops : List PpaOp) :
    ExclusiveOwnership (ppaReach words mmap reread ops) :=
  (ppa_reach_sized words mmap reread ops).exclusive

end SiStultum
