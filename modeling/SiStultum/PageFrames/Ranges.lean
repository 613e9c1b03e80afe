import SiStultum.PageFrames.Counters

/-!
# Ranged releases

A lock, a reservation or a release moves one page between `mem_free` and its account for every bit
it changes (`Exchange`), so two results with the same bitmap have the same counters. The releasing
loops compute `4096 * i` in an `int`, which turn `2 ^ 19` overflows. `ranged_release_iff` says that
they release their range up to that length, and that they have no result past it.
-/

namespace SiStultum

open PpaState Counting IntLoop

/-- The bitmaps are equal, and so are the counters. -/
structure SameMemory (s t : PpaState) : Prop where
  bit : s.bit = t.bit
  fixed : s.fixed = t.fixed
  counters : s.counters = t.counters

/-- `op` applied once to each of `addr, addr + 4096, .., addr + 4096 * (n - 1)`. -/
def eachPage (op : PpaState → BitVec 64 → PpaState) (s : PpaState) (addr : BitVec 64) (n : Nat) :
    PpaState :=
  (List.range n).foldl (fun s k => op s (addr + BitVec.ofNat 64 (4096 * k))) s

/-- Every frame of the range is tracked and free. -/
def FreeRange (s : PpaState) (addr : BitVec 64) (n : Nat) : Prop :=
  ∀ i, Covers addr n i → s.Tracked i ∧ s.bit i = false

namespace PpaState

/-- The counter of an account. -/
def balance (account : Account) (s : PpaState) : BitVec 64 :=
  match account with
  | .used => s.memUsed
  | .rsvd => s.memRsvd

end PpaState

/-- The account that an operation does not use. -/
def Account.other : Account → Account
  | .used => .rsvd
  | .rsvd => .used

/-! ## One page for every bit -/

/-- The counters moved by one page from `mem_free` to the account for every frame that is taken in
`t` and not in `s`, and back for every frame that is taken in `s` only. -/
structure Exchange (account : Account) (s t : PpaState) : Prop where
  fixed : t.fixed = s.fixed
  free : t.memFree + BitVec.ofNat 64 (4096 * t.takenFrames) =
    s.memFree + BitVec.ofNat 64 (4096 * s.takenFrames)
  paid : t.balance account - BitVec.ofNat 64 (4096 * t.takenFrames) =
    s.balance account - BitVec.ofNat 64 (4096 * s.takenFrames)
  other : t.balance account.other = s.balance account.other

variable {account : Account} {s t u : PpaState} {addr n : BitVec 64}

/-- Nothing is exchanged. -/
theorem Exchange.refl (account : Account) (s : PpaState) : Exchange account s s :=
  ⟨rfl, rfl, rfl, rfl⟩

/-- Two exchanges, one after the other. -/
theorem Exchange.trans (h : Exchange account s t) (hnext : Exchange account t u) :
    Exchange account s u :=
  ⟨hnext.fixed.trans h.fixed, hnext.free.trans h.free, hnext.paid.trans h.paid,
    hnext.other.trans h.other⟩

/-- An exchange and its reverse. -/
theorem Exchange.symm (h : Exchange account s t) : Exchange account t s :=
  ⟨h.fixed.symm, h.free.symm, h.paid.symm, h.other.symm⟩

/-- The bitmap determines the counters. -/
theorem Exchange.same_iff (h : Exchange account s t) : SameMemory s t ↔ s.bit = t.bit := by
  refine ⟨SameMemory.bit, fun hbit => ⟨hbit, h.fixed.symm, ?_⟩⟩
  have htaken : s.takenFrames = t.takenFrames := by
    rw [takenFrames, takenFrames, hbit, frames_of_fixed h.fixed]
  obtain ⟨_, hfree, hpaid, hother⟩ := h
  rw [htaken] at hfree hpaid
  have hfree_eq : s.memFree = t.memFree := by bv_omega
  have hbalance : s.balance account = t.balance account := by bv_omega
  cases account with
  | used => simp only [counters, hfree_eq, show s.memUsed = t.memUsed from hbalance,
      show t.memRsvd = s.memRsvd from hother]
  | rsvd => simp only [counters, hfree_eq, show s.memRsvd = t.memRsvd from hbalance,
      show t.memUsed = s.memUsed from hother]

/-- `ppa_bitmap_set` keeps the balances. -/
theorem balance_ppa_bitmap_set (account : Account) (s : PpaState) (index : BitVec 64)
    (setBit : Bool) :
    (ppaBitmapSet s index setBit).2.balance account = s.balance account ∧
      (ppaBitmapSet s index setBit).2.memFree = s.memFree := by
  have hcounters := ppa_bitmap_set_counters (s := s) index setBit
  simp only [counters, Prod.mk.injEq] at hcounters
  obtain ⟨hused, hrsvd, hfree⟩ := hcounters
  cases account with
  | used => exact ⟨hused, hfree⟩
  | rsvd => exact ⟨hrsvd, hfree⟩

/-- A charge is on the balance of its account only. -/
theorem charge_balance (account : Account) (s : PpaState) :
    (s.charge account).balance account = s.balance account + 4096 ∧
      (s.charge account).balance account.other = s.balance account.other := by
  cases account <;> simp only [charge, balance, Account.other, and_self]

/-- So is a refund. -/
theorem refund_balance (account : Account) (s : PpaState) :
    (s.refund account).balance account = s.balance account - 4096 ∧
      (s.refund account).balance account.other = s.balance account.other := by
  cases account <;> simp only [refund, balance, Account.other, and_self]

/-- Locking or reserving a free frame pays one page for its bit. -/
theorem acquire_clear (account : Account) (htracked : s.Tracked (frameOf addr))
    (hclear : s.bit (frameOf addr) = false) :
    (∀ j, (acquire account s addr).bit j = if j = frameOf addr then true else s.bit j) ∧
      (acquire account s addr).memFree = s.memFree - 4096 ∧
      (acquire account s addr).balance account = s.balance account + 4096 ∧
      (acquire account s addr).balance account.other = s.balance account.other := by
  obtain ⟨_, hset, _⟩ | ⟨_, _, h⟩ | ⟨huntracked, _⟩ := acquire_cases account s addr
  · rw [hclear] at hset
    cases hset
  · obtain ⟨hbalance, hfree⟩ := balance_ppa_bitmap_set account s (addr / 4096) true
    have hrest := (balance_ppa_bitmap_set account.other s (addr / 4096) true).1
    obtain ⟨hcharge, hkept⟩ := charge_balance account (ppaBitmapSet s (addr / 4096) true).2
    rw [h, ← hfree, ← hbalance, ← hrest]
    refine ⟨fun j => ?_, charge_mem_free account _, hcharge, hkept⟩
    rw [charge_bit, bit_ppa_bitmap_set, to_nat_div_4096]
    simp [htracked]
  · exact absurd htracked huntracked

/-- Unlocking or unreserving a taken frame refunds one page for its bit. -/
theorem release_set (account : Account) (htracked : s.Tracked (frameOf addr))
    (hset : s.bit (frameOf addr) = true) :
    (∀ j, (release account s addr).bit j = if j = frameOf addr then false else s.bit j) ∧
      (release account s addr).memFree = s.memFree + 4096 ∧
      (release account s addr).balance account = s.balance account - 4096 ∧
      (release account s addr).balance account.other = s.balance account.other := by
  obtain ⟨_, _, h⟩ | ⟨huntaken, _⟩ := release_cases account s addr
  · obtain ⟨hbalance, hfree⟩ := balance_ppa_bitmap_set account s (addr / 4096) false
    have hrest := (balance_ppa_bitmap_set account.other s (addr / 4096) false).1
    obtain ⟨hrefund, hkept⟩ := refund_balance account (ppaBitmapSet s (addr / 4096) false).2
    have hbits : (release account s addr).bit = (ppaBitmapSet s (addr / 4096) false).2.bit := by
      rw [h]
      exact refund_bit account _
    refine ⟨fun j => ?_, ?_⟩
    · rw [hbits, bit_ppa_bitmap_set, to_nat_div_4096]
      simp [htracked]
    · rw [h, ← hfree, ← hbalance, ← hrest]
      exact ⟨refund_mem_free account _, hrefund, hkept⟩
  · exact absurd ⟨htracked, hset⟩ huntaken

/-- The number of taken frames when one bit changes. -/
theorem taken_frames_set {index : Nat} (htracked : s.Tracked index) (hfixed : t.fixed = s.fixed)
    (hclear : s.bit index = false) (hset : t.bit index = true)
    (hother : ∀ j, j ≠ index → t.bit j = s.bit j) : t.takenFrames = s.takenFrames + 1 := by
  rw [takenFrames, takenFrames, frames_of_fixed hfixed]
  exact count_true_set (Nat.lt_succ_of_le htracked) hclear hset hother

/-- Locking or reserving a tracked frame. -/
theorem exchange_acquire (htracked : s.Tracked (frameOf addr)) :
    Exchange account s (acquire account s addr) := by
  obtain ⟨_, _, h⟩ | ⟨_, hclear, _⟩ | ⟨huntracked, _⟩ := acquire_cases account s addr
  · rw [h]
    exact .refl account s
  · obtain ⟨hbits, hfree, hpaid, hother⟩ := acquire_clear account htracked hclear
    have htaken := taken_frames_set htracked (@acquire_fixed account s addr)
      hclear (by simp [hbits]) (fun j hj => by simp [hbits, hj])
    refine ⟨acquire_fixed, ?_, ?_, hother⟩
    · rw [htaken, hfree]
      bv_omega
    · rw [htaken, hpaid]
      bv_omega
  · exact absurd htracked huntracked

/-- Unlocking or unreserving a frame. -/
theorem exchange_release (account : Account) (s : PpaState) (addr : BitVec 64) :
    Exchange account s (release account s addr) := by
  obtain ⟨htracked, hset, _⟩ | ⟨_, h⟩ := release_cases account s addr
  · obtain ⟨hbits, hfree, hpaid, hother⟩ := release_set account htracked hset
    have htaken : s.takenFrames = (release account s addr).takenFrames + 1 :=
      taken_frames_set ((tracked_of_fixed release_fixed _).mpr htracked) release_fixed.symm
        (by simp [hbits]) hset (fun j hj => by simp [hbits, hj])
    refine ⟨release_fixed, ?_, ?_, hother⟩
    · rw [htaken, hfree]
      bv_omega
    · rw [htaken, hpaid]
      bv_omega
  · rw [h]
    exact .refl account s

/-- A ranged acquire exchanges free pages for those of the account. -/
theorem exchange_acquire_loop {n : Nat} (htracked : ∀ i, Covers addr n i → s.Tracked i) :
    Exchange account s (acquireLoop account s addr n) := by
  induction n generalizing s addr with
  | zero => exact .refl account s
  | succ n ih =>
      have hfirst : s.Tracked (frameOf addr) := htracked _ ((covers_succ addr n _).mpr (.inl rfl))
      have hstep : Exchange account s (acquire account s addr) := exchange_acquire hfirst
      rw [acquireLoop]
      refine hstep.trans (ih fun i hi => ?_)
      rw [tracked_of_fixed hstep.fixed]
      exact htracked i ((covers_succ addr n i).mpr (.inr hi))

/-- So do the releases of a list of pages. -/
theorem exchange_release_all (account : Account) (s : PpaState) (addrs : List (BitVec 64)) :
    Exchange account s (addrs.foldl (release account) s) := by
  induction addrs generalizing s with
  | nil => exact .refl account s
  | cons addr addrs ih => exact (exchange_release account s addr).trans (ih _)

/-! ## The frames of a releasing loop -/

/-- The releases of the pages of a range, one after the other. -/
theorem each_page_eq (account : Account) (s : PpaState) (addr : BitVec 64) (n : Nat) :
    eachPage (release account) s addr n = (pageAddresses addr n).foldl (release account) s := by
  rw [eachPage, pageAddresses, List.foldl_map]

/-- Another hint is the same memory. -/
theorem same_memory_hint (s : PpaState) (lastHit : BitVec 64) :
    SameMemory { s with lastHit := lastHit } s :=
  ⟨rfl, rfl, rfl⟩

/-- Two states with the memory of a third one. -/
theorem SameMemory.trans (h : SameMemory s t) (hnext : SameMemory t u) : SameMemory s u :=
  ⟨h.bit.trans hnext.bit, h.fixed.trans hnext.fixed, h.counters.trans hnext.counters⟩

/-- The memory of the second is that of the first. -/
theorem SameMemory.symm (h : SameMemory s t) : SameMemory t s :=
  ⟨h.bit.symm, h.fixed.symm, h.counters.symm⟩

/-- A ranged release releases each page of its range exactly when it overflows in no turn. -/
theorem release_n_same_iff (account : Account) (s : PpaState) (addr n : BitVec 64) :
    (∃ t, releaseN account s addr n = some t ∧
      SameMemory t (eachPage (release account) s addr n.toNat)) ↔ n.toNat ≤ 2 ^ 19 := by
  rw [release_n_eq, each_page_eq]
  split
  · next hshort => exact iff_of_true ⟨_, rfl, same_memory_hint _ _⟩ hshort
  · next hlong =>
    refine iff_of_false ?_ hlong
    rintro ⟨t, hnone, _⟩
    cases hnone

/-- Two bitmaps are equal when the same bits are set. -/
theorem bit_eq_iff : s.bit = t.bit ↔ ∀ j, s.bit j = true ↔ t.bit j = true := by
  rw [funext_iff]
  exact forall_congr' fun j => Bool.eq_iff_iff

/-- Releasing the pages of a range of free frames after their lock or reservation restores the
bitmap and the counters, for any length. -/
theorem each_page_restores (account : Account) {n : Nat} (hfree : FreeRange s addr n) :
    SameMemory (eachPage (release account) (acquireLoop account s addr n) addr n) s := by
  have hacquire : Exchange account s (acquireLoop account s addr n) :=
    exchange_acquire_loop fun i hi => (hfree i hi).1
  rw [each_page_eq]
  have hrelease :=
    exchange_release_all account (acquireLoop account s addr n) (pageAddresses addr n)
  rw [(hacquire.trans hrelease).symm.same_iff, bit_eq_iff]
  intro j
  rw [bit_release_all, page_addresses_reach, tracked_of_fixed hacquire.fixed, bit_acquire_loop]
  constructor
  · rintro ⟨hset | hin, hout⟩
    · exact hset
    · exact absurd hin hout
  · intro hset
    refine ⟨.inl hset, ?_⟩
    rintro ⟨_, hcovers⟩
    rw [(hfree j hcovers).2] at hset
    cases hset

/-- A release after the lock or the reservation of free frames restores them exactly when there are
at most `2 ^ 19` of them. -/
theorem release_n_restores_iff (account : Account) (hfree : FreeRange s addr n.toNat) :
    (∃ t, releaseN account (acquireN account s addr n) addr n = some t ∧ SameMemory t s) ↔
      n.toNat ≤ 2 ^ 19 := by
  have hrestores : SameMemory
      (eachPage (release account) (acquireN account s addr n) addr n.toNat) s :=
    each_page_restores account hfree
  rw [← release_n_same_iff account (acquireN account s addr n) addr n]
  refine exists_congr fun t => and_congr_right fun _ => ?_
  exact ⟨fun h => h.trans hrestores.symm, fun h => h.trans hrestores⟩

/-- `ppa_ulckn` and `ppa_ursvn` release each page of their range, and after a ranged lock or
reservation of free frames restore the bitmap and the counters, for up to `2 ^ 19` pages. Past that
the product `4096 * i` overflows, and they have no result. -/
theorem ranged_release_iff (s : PpaState) (addr n : BitVec 64) :
    ((∃ t, ppaUlckn s addr n = some t ∧ SameMemory t (eachPage ppaUlck s addr n.toNat)) ↔
      n.toNat ≤ 2 ^ 19) ∧
    ((∃ t, ppaUrsvn s addr n = some t ∧ SameMemory t (eachPage ppaUrsv s addr n.toNat)) ↔
      n.toNat ≤ 2 ^ 19) ∧
    (FreeRange s addr n.toNat →
      ((∃ t, ppaUlckn (ppaLckn s addr n) addr n = some t ∧ SameMemory t s) ↔
        n.toNat ≤ 2 ^ 19) ∧
      ((∃ t, ppaUrsvn (ppaRsvn s addr n) addr n = some t ∧ SameMemory t s) ↔
        n.toNat ≤ 2 ^ 19)) :=
  ⟨release_n_same_iff .used s addr n, release_n_same_iff .rsvd s addr n,
    fun hfree => ⟨release_n_restores_iff .used hfree, release_n_restores_iff .rsvd hfree⟩⟩

/-- `2 ^ 20` frames, all of them free. -/
def wideFree : PpaState where
  bitmap := ⟨0x8001, 0xfffff, 0x100000, fun _ => 0⟩
  memUsed := 0
  memRsvd := 0
  memFree := 0x100000000
  memTotal := 0x100000000
  initialized := true
  lastHit := 0

/-- The frames of the wide allocator are free. -/
theorem free_range_wide {n : Nat} (hn : n ≤ 2 ^ 20) : FreeRange wideFree 0 n := by
  intro i hi
  rw [covers_iff_of_no_wrap (by simp; omega)] at hi
  have hframe : frameOf 0 = 0 := by decide
  have hmax : (0xfffff : BitVec 64).toNat = 0xfffff := by decide
  constructor
  · simp only [Tracked, wideFree, hmax]
    omega
  · simp [bit, wideFree]

/-- Locking 64 free frames and unlocking them. -/
theorem ranged_release_wide :
    (∃ t, ppaUlckn (ppaLckn wideFree 0 64) 0 64 = some t ∧ SameMemory t wideFree) ∧
      ∃ t, ppaUrsvn (ppaRsvn wideFree 0 64) 0 64 = some t ∧ SameMemory t wideFree := by
  have hshort : (64 : BitVec 64).toNat ≤ 2 ^ 19 := by decide
  have hfree : FreeRange wideFree 0 (64 : BitVec 64).toNat := free_range_wide (by decide)
  obtain ⟨_, _, hrestores⟩ := ranged_release_iff wideFree 0 64
  exact ⟨(hrestores hfree).1.mpr hshort, (hrestores hfree).2.mpr hshort⟩

/-- Locking `2 ^ 19 + 1` free frames from 0 on and unlocking them overflows, which unlocking each
page does not: that restores the bitmap and the counters. -/
theorem wide_range_not_released :
    FreeRange wideFree 0 (0x80001 : BitVec 64).toNat ∧
      ppaUlckn (ppaLckn wideFree 0 0x80001) 0 0x80001 = none ∧
      SameMemory (eachPage ppaUlck (ppaLckn wideFree 0 0x80001) 0 0x80001) wideFree := by
  have hn : (0x80001 : BitVec 64).toNat = 0x80001 := by decide
  have hfree : FreeRange wideFree 0 0x80001 := free_range_wide (by omega)
  refine ⟨by rwa [hn], ?_, each_page_restores .used hfree⟩
  rw [ppaUlckn, release_n_eq, if_neg (by omega)]

end SiStultum
