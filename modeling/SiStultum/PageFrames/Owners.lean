import SiStultum.PageFrames.Ranges

/-!
# Locked and reserved frames

The bitmap does not tell a locked frame from a reserved one: which it is follows from the calls made
so far. `ownerStep` keeps that history as an owner for every frame, and `Ledger` says that
`mem_used`, `mem_rsvd` and `mem_free` are the sizes of the locked, the reserved and the free frames.
Calls that release only what their account holds keep the ledger and take no counter below zero
(`owners_counted`), whatever ranges they lock or reserve again.
-/

namespace SiStultum

open PpaState Counting IntLoop Runs

/-- Who holds a frame. -/
inductive Owner where
  | free
  | locked
  | reserved
  deriving DecidableEq, Repr

/-- The owner of the frames that an account pays for. -/
def Account.owner : Account → Owner
  | .used => .locked
  | .rsvd => .reserved

/-- A free frame goes to the account, and any other keeps its owner. -/
def takeFrame (account : Account) (owner : Nat → Owner) (i : Nat) : Nat → Owner :=
  if owner i = .free then Function.update owner i account.owner else owner

/-- A frame becomes free. -/
def giveFrame (owner : Nat → Owner) (i : Nat) : Nat → Owner :=
  Function.update owner i .free

/-- The frames of a range, in order. -/
def pageFrames (addr n : BitVec 64) : List Nat :=
  (pageAddresses addr n.toNat).map frameOf

/-- The owners after one call. -/
def ownerStep (s : PpaState) (owner : Nat → Owner) : PpaOp → Nat → Owner
  | .lck addr => takeFrame .used owner (frameOf addr)
  | .lckn addr n => run (takeFrame .used) owner (pageFrames addr n)
  | .ulck addr | .ursv addr => giveFrame owner (frameOf addr)
  | .ulckn addr n | .ursvn addr n => run giveFrame owner (pageFrames addr n)
  | .rsv addr => takeFrame .rsvd owner (frameOf addr)
  | .rsvn addr n => run (takeFrame .rsvd) owner (pageFrames addr n)
  | .request =>
      if ppaScan s = none then owner else takeFrame .used owner (frameOf (ppaRequest s).1)

/-- The allocator with the owners of its frames. -/
def ledgerStep (state : PpaState × (Nat → Owner)) (op : PpaOp) : PpaState × (Nat → Owner) :=
  (ppaStep state.1 op, ownerStep state.1 state.2 op)

/-- The bitmap and the counters are those of the owners. -/
structure Ledger (s : PpaState) (owner : Nat → Owner) : Prop where
  bit : ∀ i, s.Tracked i → (s.bit i = true ↔ owner i ≠ .free)
  used : s.memUsed.toNat = 4096 * countOf .locked owner s.frames
  rsvd : s.memRsvd.toNat = 4096 * countOf .reserved owner s.frames
  free : s.memFree.toNat = 4096 * countOf .free owner s.frames
  total : s.memTotal.toNat = 4096 * s.frames

/-- The account may release the frame: it is tracked, and free or held by the account. -/
def Releasable (account : Account) (s : PpaState) (owner : Nat → Owner) (i : Nat) : Prop :=
  s.Tracked i ∧ (owner i = .free ∨ owner i = account.owner)

instance (account : Account) (s : PpaState) (owner : Nat → Owner) (i : Nat) :
    Decidable (Releasable account s owner i) :=
  inferInstanceAs (Decidable (_ ∧ _))

/-- The call is given tracked frames, and releases only frames that are free or held by its
account, fewer than `2 ^ 19` at a time. A request returns a tracked frame. -/
def Admissible (state : PpaState × (Nat → Owner)) : PpaOp → Prop
  | .lck addr | .rsv addr => state.1.Tracked (frameOf addr)
  | .lckn addr n | .rsvn addr n => ∀ i ∈ pageFrames addr n, state.1.Tracked i
  | .ulck addr => Releasable .used state.1 state.2 (frameOf addr)
  | .ursv addr => Releasable .rsvd state.1 state.2 (frameOf addr)
  | .ulckn addr n =>
      n.toNat < 2 ^ 19 ∧ ∀ i ∈ pageFrames addr n, Releasable .used state.1 state.2 i
  | .ursvn addr n =>
      n.toNat < 2 ^ 19 ∧ ∀ i ∈ pageFrames addr n, Releasable .rsvd state.1 state.2 i
  | .request => state.1.Tracked (frameOf (ppaRequest state.1).1)

instance (state : PpaState × (Nat → Owner)) : (op : PpaOp) → Decidable (Admissible state op)
  | .lck addr | .rsv addr => inferInstanceAs (Decidable (state.1.Tracked (frameOf addr)))
  | .lckn addr n | .rsvn addr n =>
      inferInstanceAs (Decidable (∀ i ∈ pageFrames addr n, state.1.Tracked i))
  | .ulck addr =>
      inferInstanceAs (Decidable (Releasable .used state.1 state.2 (frameOf addr)))
  | .ursv addr =>
      inferInstanceAs (Decidable (Releasable .rsvd state.1 state.2 (frameOf addr)))
  | .ulckn _ _ | .ursvn _ _ => inferInstanceAs (Decidable (_ ∧ _))
  | .request => inferInstanceAs (Decidable (state.1.Tracked (frameOf (ppaRequest state.1).1)))

/-- Locking or reserving the page takes `mem_free` not below zero. -/
def AcquireSolvent (s : PpaState) (addr : BitVec 64) : Prop :=
  ppaBitmapGet s (addr / 4096) = false → 4096 ≤ s.memFree.toNat

/-- Releasing the page takes the counter of the account not below zero. -/
def ReleaseSolvent (account : Account) (s : PpaState) (addr : BitVec 64) : Prop :=
  ppaBitmapGet s (addr / 4096) = true → 4096 ≤ (s.balance account).toNat

/-- A call takes no counter below zero, at any page of its range. -/
def Solvent (s : PpaState) : PpaOp → Prop
  | .lck addr | .rsv addr => AcquireSolvent s addr
  | .lckn addr n => Meets (acquire .used) AcquireSolvent s (pageAddresses addr n.toNat)
  | .rsvn addr n => Meets (acquire .rsvd) AcquireSolvent s (pageAddresses addr n.toNat)
  | .ulck addr => ReleaseSolvent .used s addr
  | .ursv addr => ReleaseSolvent .rsvd s addr
  | .ulckn addr n =>
      Meets (release .used) (ReleaseSolvent .used) s (pageAddresses addr n.toNat)
  | .ursvn addr n =>
      Meets (release .rsvd) (ReleaseSolvent .rsvd) s (pageAddresses addr n.toNat)
  | .request => ∀ index, ppaScan s = some index →
      AcquireSolvent { s with lastHit := index } (index * 4096)

variable {account : Account} {s : PpaState} {owner : Nat → Owner} {addr n : BitVec 64}

/-! ## One frame -/

/-- The counter of the frames that an owner holds. -/
def PpaState.balanceOf (s : PpaState) : Owner → BitVec 64
  | .free => s.memFree
  | .locked => s.memUsed
  | .reserved => s.memRsvd

/-- A balance counts the frames of its owner. -/
theorem Ledger.balance (h : Ledger s owner) (holder : Owner) :
    (s.balanceOf holder).toNat = 4096 * countOf holder owner s.frames := by
  cases holder with
  | free => exact h.free
  | locked => exact h.used
  | reserved => exact h.rsvd

/-- The balance of an account is that of its owner. -/
theorem balance_of_owner (account : Account) (s : PpaState) :
    s.balanceOf account.owner = s.balance account := by
  cases account with
  | used | rsvd => rfl

/-- The owner that is left is that of the other account. -/
theorem eq_other_owner {holder : Owner} (hfree : holder ≠ .free) (hne : holder ≠ account.owner) :
    holder = account.other.owner := by
  revert hfree hne
  cases account <;> cases holder <;> decide

/-- An account owns no free frame. -/
theorem owner_ne_free (account : Account) : account.owner ≠ .free := by
  cases account <;> decide

/-- `last_hit` is no part of the ledger. -/
theorem Ledger.with_last_hit (h : Ledger s owner) (hit : BitVec 64) :
    Ledger { s with lastHit := hit } owner :=
  ⟨h.bit, h.used, h.rsvd, h.free, h.total⟩

/-- A tracked frame moves from its owner to another one, and its page from the one counter to the
other. The counter of the owner has that page. -/
theorem Ledger.move (h : Ledger s owner) {t : PpaState} {i : Nat} {holder : Owner}
    (htracked : s.Tracked i) (hne : holder ≠ owner i) (hfixed : t.fixed = s.fixed)
    (hbits : ∀ j, t.bit j = if j = i then decide (holder ≠ .free) else s.bit j)
    (hgain : t.balanceOf holder = s.balanceOf holder + 4096)
    (hpay : t.balanceOf (owner i) = s.balanceOf (owner i) - 4096)
    (hrest : ∀ other, other ≠ holder → other ≠ owner i → t.balanceOf other = s.balanceOf other) :
    Ledger t (Function.update owner i holder) ∧ 4096 ≤ (s.balanceOf (owner i)).toNat := by
  have hframe : i < s.frames := Nat.lt_succ_of_le htracked
  have hbytes := h.total
  have hbytes_bound := s.memTotal.isLt
  have hupdate := fun other => count_of_update other owner hframe holder
  have hcount : ∀ other, (t.balanceOf other).toNat =
      4096 * countOf other (Function.update owner i holder) s.frames := by
    intro other
    have hmoved := hupdate other
    have hroom := count_of_le other (Function.update owner i holder) s.frames
    have hbefore := h.balance other
    -- the new holder gains a page, the old one loses it, and the third one keeps its pages
    by_cases hto : other = holder
    · subst hto
      rw [if_neg hne.symm, if_pos rfl] at hmoved
      rw [hgain]
      bv_omega
    · rw [if_neg (Ne.symm hto)] at hmoved
      by_cases hfrom : other = owner i
      · subst hfrom
        rw [if_pos rfl] at hmoved
        rw [hpay]
        bv_omega
      · rw [if_neg (Ne.symm hfrom)] at hmoved
        rw [hrest other hto hfrom]
        omega
  have hpaid := hupdate (owner i)
  rw [if_pos rfl, if_neg hne] at hpaid
  have hbefore := h.balance (owner i)
  rw [← frames_of_fixed hfixed] at hcount
  refine ⟨⟨?_, hcount .locked, hcount .reserved, hcount .free, ?_⟩, by omega⟩
  · intro j hj
    rw [hbits]
    by_cases hsame : j = i
    · simp [hsame]
    · rw [if_neg hsame, Function.update_of_ne hsame]
      exact h.bit j ((tracked_of_fixed hfixed j).mp hj)
  · rw [frames_of_fixed hfixed, mem_total_of_fixed hfixed, hbytes]

/-- Taking a tracked frame keeps the ledger, and there is room for it in `mem_free`. -/
theorem Ledger.acquire (h : Ledger s owner) (htracked : s.Tracked (frameOf addr)) :
    Ledger (acquire account s addr) (takeFrame account owner (frameOf addr)) ∧
      AcquireSolvent s addr := by
  obtain ⟨_, hset, hstate⟩ | ⟨_, hclear, -⟩ | ⟨huntracked, _⟩ := acquire_cases account s addr
  · have howner : owner (frameOf addr) ≠ .free := (h.bit _ htracked).mp hset
    rw [hstate, takeFrame, if_neg howner]
    refine ⟨h, fun hfree => ?_⟩
    rw [ppa_bitmap_get_frame, hset] at hfree
    simp [htracked] at hfree
  · have howner : owner (frameOf addr) = .free := by
      by_contra hne
      rw [(h.bit _ htracked).mpr hne] at hclear
      cases hclear
    have hne := owner_ne_free account
    obtain ⟨hbits, hfree, hpaid, hother⟩ := acquire_clear account htracked hclear
    obtain ⟨hledger, hsolvent⟩ := @Ledger.move _ _ h _ _ account.owner htracked (howner ▸ hne)
      (@acquire_fixed account s addr) (by simpa [hne] using hbits)
      (by rw [balance_of_owner, balance_of_owner, hpaid])
      (by rw [howner]; exact hfree) fun other hto hfrom => by
        rw [eq_other_owner (howner ▸ hfrom) hto, balance_of_owner, balance_of_owner, hother]
    rw [takeFrame, if_pos howner]
    rw [howner] at hsolvent
    exact ⟨hledger, fun _ => hsolvent⟩
  · exact absurd htracked huntracked

/-- Releasing a frame that is free or held by the account keeps the ledger, and the account has the
page it pays back. -/
theorem Ledger.release (h : Ledger s owner) (hrelease : Releasable account s owner (frameOf addr)) :
    Ledger (release account s addr) (giveFrame owner (frameOf addr)) ∧
      ReleaseSolvent account s addr := by
  obtain ⟨htracked, howner⟩ := hrelease
  have hne := owner_ne_free account
  rcases howner with hfree | hheld
  · have hclear : s.bit (frameOf addr) = false := by
      rw [← Bool.not_eq_true, h.bit _ htracked, not_not]
      exact hfree
    have hstate : SiStultum.release account s addr = s := by
      obtain ⟨_, hset, _⟩ | ⟨_, hstate⟩ := release_cases account s addr
      · rw [hclear] at hset
        cases hset
      · exact hstate
    have hsame : giveFrame owner (frameOf addr) = owner := by
      rw [giveFrame, ← hfree, Function.update_eq_self]
    rw [hstate, hsame]
    refine ⟨h, fun htaken => ?_⟩
    rw [ppa_bitmap_get_frame, hclear] at htaken
    simp at htaken
  · have hset : s.bit (frameOf addr) = true := (h.bit _ htracked).mpr (by rwa [hheld])
    obtain ⟨hbits, hfree, hpaid, hother⟩ := release_set account htracked hset
    obtain ⟨hledger, hsolvent⟩ := @Ledger.move _ _ h _ _ .free htracked (hheld ▸ hne.symm)
      (@release_fixed account s addr) (by simpa using hbits) hfree
      (by rw [hheld, balance_of_owner, balance_of_owner, hpaid]) fun other hto hfrom => by
        rw [eq_other_owner hto (hheld ▸ hfrom), balance_of_owner, balance_of_owner, hother]
    rw [hheld, balance_of_owner] at hsolvent
    exact ⟨hledger, fun _ => hsolvent⟩

/-! ## Ranges -/

/-- Taking pages one after the other. -/
theorem Ledger.acquire_all (h : Ledger s owner) {addrs : List (BitVec 64)}
    (htracked : ∀ i ∈ addrs.map frameOf, s.Tracked i) :
    Ledger (run (SiStultum.acquire account) s addrs)
        (run (takeFrame account) owner (addrs.map frameOf)) ∧
      Meets (SiStultum.acquire account) AcquireSolvent s addrs := by
  induction addrs generalizing s owner with
  | nil => exact ⟨h, trivial⟩
  | cons addr addrs ih =>
      rw [List.map_cons, List.forall_mem_cons] at htracked
      obtain ⟨hstep, hsolvent⟩ := @Ledger.acquire account _ _ _ h htracked.1
      obtain ⟨hrun, hmeets⟩ := ih hstep fun i hi =>
        (tracked_of_fixed acquire_fixed i).mpr (htracked.2 i hi)
      exact ⟨hrun, hsolvent, hmeets⟩

/-- Releasing one frame leaves the others releasable. -/
theorem Releasable.give {i j : Nat} (h : Releasable account s owner i)
    {t : PpaState} (hfixed : t.fixed = s.fixed) : Releasable account t (giveFrame owner j) i := by
  refine ⟨(tracked_of_fixed hfixed i).mpr h.1, ?_⟩
  rw [giveFrame]
  by_cases hsame : i = j
  · left
    rw [hsame, Function.update_self]
  · rw [Function.update_of_ne hsame]
    exact h.2

/-- Releasing pages one after the other. -/
theorem Ledger.release_all (h : Ledger s owner) {addrs : List (BitVec 64)}
    (hrelease : ∀ i ∈ addrs.map frameOf, Releasable account s owner i) :
    Ledger (run (SiStultum.release account) s addrs)
        (run giveFrame owner (addrs.map frameOf)) ∧
      Meets (SiStultum.release account) (ReleaseSolvent account) s addrs := by
  induction addrs generalizing s owner with
  | nil => exact ⟨h, trivial⟩
  | cons addr addrs ih =>
      rw [List.map_cons, List.forall_mem_cons] at hrelease
      obtain ⟨hstep, hsolvent⟩ := h.release hrelease.1
      obtain ⟨hrun, hmeets⟩ := ih hstep fun i hi => (hrelease.2 i hi).give release_fixed
      exact ⟨hrun, hsolvent, hmeets⟩

/-- The acquiring loop takes the pages of its range in order. -/
theorem acquire_n_eq_run (account : Account) (s : PpaState) (addr : BitVec 64) (n : Nat) :
    acquireLoop account s addr n = run (acquire account) s (pageAddresses addr n) := by
  induction n generalizing s addr with
  | zero => rfl
  | succ n ih =>
      have hpages : pageAddresses addr (n + 1) = addr :: pageAddresses (addr + 4096) n := by
        rw [pageAddresses, List.range_succ_eq_map, List.map_cons, List.map_map, pageAddresses]
        refine congrArg₂ List.cons (by simp) (List.map_congr_left fun k _ => ?_)
        apply BitVec.eq_of_toNat_eq
        simp only [Function.comp_apply, BitVec.toNat_add, BitVec.toNat_ofNat, BitVec.ofNat_eq_ofNat]
        omega
      rw [acquireLoop, ih, hpages, run_cons]

/-- A ranged acquire gives its pages to the account, and each of them can be charged. -/
theorem Ledger.acquire_n (h : Ledger s owner) (htracked : ∀ i ∈ pageFrames addr n, s.Tracked i) :
    Ledger (acquireN account s addr n) (run (takeFrame account) owner (pageFrames addr n)) ∧
      Meets (SiStultum.acquire account) AcquireSolvent s (pageAddresses addr n.toNat) := by
  rw [acquireN, acquire_n_eq_run]
  exact h.acquire_all htracked

/-- A ranged release frees its pages, and each of them can be refunded. -/
theorem Ledger.release_n (h : Ledger s owner) (hn : n.toNat < 2 ^ 19)
    (hrelease : ∀ i ∈ pageFrames addr n, Releasable account s owner i) :
    Ledger (s.proceed (releaseN account s addr n)) (run giveFrame owner (pageFrames addr n)) ∧
      Meets (SiStultum.release account) (ReleaseSolvent account) s
        (pageAddresses addr n.toNat) := by
  rw [release_n_eq, if_pos (Nat.le_of_lt hn)]
  obtain ⟨hrun, hmeets⟩ := h.release_all hrelease
  exact ⟨hrun.with_last_hit _, hmeets⟩

/-! ## Runs -/

/-- A request is a lock of the frame it returns. -/
theorem Ledger.request (h : Ledger s owner)
    (htracked : s.Tracked (frameOf (ppaRequest s).1)) :
    Ledger (ppaRequest s).2 (ownerStep s owner .request) ∧ Solvent s .request := by
  cases hscan : ppaScan s with
  | none =>
      refine ⟨?_, fun index hindex => ?_⟩
      · simpa [ppaRequest, ownerStep, hscan] using h
      · rw [hscan] at hindex
        cases hindex
  | some index =>
      have hfirst : (ppaRequest s).1 = index * 4096 := by simp [ppaRequest, hscan]
      have hsecond : (ppaRequest s).2 =
          SiStultum.acquire .used { s with lastHit := index } (index * 4096) := by
        simp [ppaRequest, hscan, ppaLck]
      have hmoved := h.with_last_hit index
      rw [hfirst] at htracked
      obtain ⟨hledger, hsolvent⟩ := @Ledger.acquire .used _ _ _ hmoved htracked
      refine ⟨?_, fun other hother => ?_⟩
      · rw [hsecond, ownerStep, hscan, if_neg (by simp), hfirst]
        exact hledger
      · rw [hscan] at hother
        cases hother
        exact hsolvent

/-- An admissible call keeps the ledger and takes no counter below zero. -/
theorem Ledger.step (h : Ledger s owner) {op : PpaOp} (hop : Admissible (s, owner) op) :
    Ledger (ppaStep s op) (ownerStep s owner op) ∧ Solvent s op := by
  cases op with
  | lck addr | rsv addr => exact h.acquire hop
  | lckn addr n | rsvn addr n => exact h.acquire_n hop
  | ulck addr | ursv addr => exact h.release hop
  | ulckn addr n | ursvn addr n => exact h.release_n hop.1 hop.2
  | request => exact h.request hop

/-- An admissible call does not overflow. -/
theorem overflowed_of_admissible {op : PpaOp} (hop : Admissible (s, owner) op) :
    (ppaStep s op).overflowed = s.overflowed := by
  have hshort : ¬ op.Overflows := by
    cases op with
    | ulckn addr n | ursvn addr n => exact lt_asymm hop.1
    | _ => exact id
  rw [Bool.eq_iff_iff, ppa_step_overflowed, or_iff_left hshort]

/-- In a run of admissible calls from a state whose counters match the bitmap and the owners of its
frames, the counters match after every call, and no call overflows or takes a counter below zero. -/
theorem owners_counted (s : PpaState) (owner : Nat → Owner) (h : Ledger s owner)
    (ops : List PpaOp) (hops : Meets ledgerStep Admissible (s, owner) ops) :
    Ledger (run ppaStep s ops) (run ledgerStep (s, owner) ops).2 ∧
      Meets ppaStep Solvent s ops ∧ (run ppaStep s ops).overflowed = s.overflowed := by
  induction ops generalizing s owner with
  | nil => exact ⟨h, trivial, rfl⟩
  | cons op ops ih =>
      obtain ⟨hstep, hsolvent⟩ := h.step hops.1
      obtain ⟨hrun, hmeets, hkept⟩ := ih _ _ hstep hops.2
      exact ⟨hrun, ⟨hsolvent, hmeets⟩, hkept.trans (overflowed_of_admissible hops.1)⟩

/-- 64 frames, all of them free. -/
def smallFree : PpaState where
  bitmap := ⟨3, 63, 0x100000, fun _ => 0⟩
  memUsed := 0
  memRsvd := 0
  memFree := 0x40000
  memTotal := 0x40000
  initialized := true
  lastHit := 0

/-- In the small allocator all frames are free. -/
theorem ledger_small_free : Ledger smallFree fun _ => .free :=
  ⟨fun i _ => by simp [bit, smallFree], by decide, by decide, by decide, by decide⟩

/-- Three frames are reserved, the second of them is locked again, a free frame is unlocked, and one
is requested. -/
theorem owners_counted_small_free :
    Ledger (run ppaStep smallFree [.rsvn 0 3, .lck 0x1000, .ulck 0x5000, .request])
        (run ledgerStep (smallFree, fun _ => .free)
          [.rsvn 0 3, .lck 0x1000, .ulck 0x5000, .request]).2 ∧
      Meets ppaStep Solvent smallFree [.rsvn 0 3, .lck 0x1000, .ulck 0x5000, .request] ∧
      (run ppaStep smallFree [.rsvn 0 3, .lck 0x1000, .ulck 0x5000, .request]).overflowed =
        smallFree.overflowed :=
  owners_counted smallFree (fun _ => .free) ledger_small_free _
    ⟨by decide, by decide, by decide, by decide, trivial⟩

end SiStultum
