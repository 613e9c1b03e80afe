import SiStultum.Library.IntLoop
import SiStultum.Library.Runs
import SiStultum.Library.Signed
import SiStultum.PageFrames.Bitmap

/-!
# Locking, unlocking, reserving and unreserving frames

`ppa_lck` and `ppa_rsv` are one function with two counters, and so are `ppa_ulck` and
`ppa_ursv`, and the four ranged versions. `acquire` and `release` are the two bodies,
with the counter as a parameter. `bit_acquire` and `bit_release` describe their effect
on every bit; `acquire_cases` and `release_cases` list everything a call can do.

The ranged releases compute `4096 * i` in an `int`, whose overflow is undefined: `release_n_eq` says
that they return up to `2 ^ 19` pages, and what they return then.
-/

namespace SiStultum

open PpaState IntLoop Signed

/-- The counter an operation moves memory to or from. -/
inductive Account where
  | used
  | rsvd
  deriving DecidableEq, Repr

namespace PpaState

/-- Move one frame from `mem_free` to the account. -/
def charge (account : Account) (s : PpaState) : PpaState :=
  match account with
  | .used => { s with memUsed := s.memUsed + 4096, memFree := s.memFree - 4096 }
  | .rsvd => { s with memRsvd := s.memRsvd + 4096, memFree := s.memFree - 4096 }

/-- Move one frame from the account to `mem_free`. -/
def refund (account : Account) (s : PpaState) : PpaState :=
  match account with
  | .used => { s with memUsed := s.memUsed - 4096, memFree := s.memFree + 4096 }
  | .rsvd => { s with memRsvd := s.memRsvd - 4096, memFree := s.memFree + 4096 }

variable (account : Account) (s : PpaState)

/-- Charging a page keeps what `ppa_init` has fixed. -/
@[simp] theorem charge_fixed : (s.charge account).fixed = s.fixed := by
  cases account <;> simp only [charge, fixed]

/-- It keeps the bitmap. -/
@[simp] theorem charge_bit : (s.charge account).bit = s.bit := by
  funext i
  cases account <;> simp only [charge, bit]

/-- It keeps the hint. -/
@[simp] theorem charge_last_hit : (s.charge account).lastHit = s.lastHit := by
  cases account <;> simp only [charge]

/-- It takes a page from `mem_free`. -/
@[simp] theorem charge_mem_free : (s.charge account).memFree = s.memFree - 4096 := by
  cases account <;> rfl

/-- A reserved page is not a used one. -/
@[simp] theorem charge_rsvd_mem_used : (s.charge .rsvd).memUsed = s.memUsed := by
  simp only [charge]

/-- A used page is not a reserved one. -/
@[simp] theorem charge_used_mem_rsvd : (s.charge .used).memRsvd = s.memRsvd := by
  simp only [charge]

/-- A charge adds one frame to what is taken, whichever account it goes to. -/
theorem charge_taken :
    (s.charge account).memUsed + (s.charge account).memRsvd =
      s.memUsed + s.memRsvd + 4096 := by
  cases account <;> simp only [charge] <;> bv_omega

/-- Refunding a page keeps what `ppa_init` has fixed. -/
@[simp] theorem refund_fixed : (s.refund account).fixed = s.fixed := by
  cases account <;> simp only [refund, fixed]

/-- It keeps the bitmap. -/
@[simp] theorem refund_bit : (s.refund account).bit = s.bit := by
  funext i
  cases account <;> simp only [refund, bit]

/-- It gives a page to `mem_free`. -/
@[simp] theorem refund_mem_free : (s.refund account).memFree = s.memFree + 4096 := by
  cases account <;> rfl

/-- The end of a reservation keeps `mem_used`. -/
@[simp] theorem refund_rsvd_mem_used : (s.refund .rsvd).memUsed = s.memUsed := by
  simp only [refund]

/-- A refund takes one frame from what is taken, whichever account it comes from. -/
theorem refund_taken :
    (s.refund account).memUsed + (s.refund account).memRsvd =
      s.memUsed + s.memRsvd - 4096 := by
  cases account <;> simp only [refund] <;> bv_omega

end PpaState

/-- The frame an address lies in. -/
def frameOf (addr : BitVec 64) : Nat :=
  addr.toNat / 4096

/-- The frame that holds an address. -/
theorem to_nat_div_4096 (addr : BitVec 64) : (addr / 4096).toNat = frameOf addr := rfl

/-- `ppa_bitmap_get` at the frame of an address. -/
theorem ppa_bitmap_get_frame (s : PpaState) (addr : BitVec 64) :
    ppaBitmapGet s (addr / 4096) =
      (decide (s.Tracked (frameOf addr)) && s.bit (frameOf addr)) :=
  ppa_bitmap_get_eq (addr / 4096)

/-! ## One frame -/

/-- The body of `ppa_lck` and `ppa_rsv`. -/
def acquire (account : Account) (s : PpaState) (addr : BitVec 64) : PpaState :=
  let index := addr / 4096
  if ppaBitmapGet s index then s
  else (ppaBitmapSet s index true).2.charge account

/-- The body of `ppa_ulck` and `ppa_ursv`. -/
def release (account : Account) (s : PpaState) (addr : BitVec 64) : PpaState :=
  let index := addr / 4096
  if !ppaBitmapGet s index then s
  else { (ppaBitmapSet s index false).2.refund account with lastHit := index }

/-- `ppa_lck`. -/
def ppaLck : PpaState → BitVec 64 → PpaState := acquire .used

/-- `ppa_rsv`. -/
def ppaRsv : PpaState → BitVec 64 → PpaState := acquire .rsvd

/-- `ppa_ulck`. -/
def ppaUlck : PpaState → BitVec 64 → PpaState := release .used

/-- `ppa_ursv`. -/
def ppaUrsv : PpaState → BitVec 64 → PpaState := release .rsvd

variable {account : Account} {s : PpaState} {addr : BitVec 64}

/-- Setting an untracked bit does nothing. -/
theorem ppa_bitmap_set_untracked {index : BitVec 64} (h : ¬ s.Tracked index.toNat) (setBit : Bool) :
    (ppaBitmapSet s index setBit).2 = s := by
  have hgt : index > s.bitmap.maxIndex := by
    unfold Tracked at h
    bv_omega
  simp [ppaBitmapSet, hgt]

/-- Everything `acquire` can do: nothing to a taken frame, set the bit and charge for a free one,
and charge without setting a bit for a frame out of range. -/
theorem acquire_cases (account : Account) (s : PpaState) (addr : BitVec 64) :
    (s.Tracked (frameOf addr) ∧ s.bit (frameOf addr) = true ∧ acquire account s addr = s) ∨
    (s.Tracked (frameOf addr) ∧ s.bit (frameOf addr) = false ∧
      acquire account s addr = (ppaBitmapSet s (addr / 4096) true).2.charge account) ∨
    (¬ s.Tracked (frameOf addr) ∧ acquire account s addr = s.charge account) := by
  have hget := ppa_bitmap_get_frame s addr
  by_cases htracked : s.Tracked (frameOf addr)
  · cases hbit : s.bit (frameOf addr) with
    | true =>
        refine .inl ⟨htracked, rfl, ?_⟩
        rw [acquire, hget]
        simp only [htracked, hbit, decide_true, Bool.and_self, ↓reduceIte]
    | false =>
        refine .inr (.inl ⟨htracked, rfl, ?_⟩)
        rw [acquire, hget]
        simp only [hbit, Bool.and_false, Bool.false_eq_true, ↓reduceIte]
  · refine .inr (.inr ⟨htracked, ?_⟩)
    rw [acquire, hget, ppa_bitmap_set_untracked htracked]
    simp only [htracked, decide_false, Bool.false_and, Bool.false_eq_true, ↓reduceIte]

/-- Everything `release` can do: clear the bit and refund for a taken frame, nothing for any
other. -/
theorem release_cases (account : Account) (s : PpaState) (addr : BitVec 64) :
    (s.Tracked (frameOf addr) ∧ s.bit (frameOf addr) = true ∧
      release account s addr =
        { (ppaBitmapSet s (addr / 4096) false).2.refund account with lastHit := addr / 4096 }) ∨
    (¬ (s.Tracked (frameOf addr) ∧ s.bit (frameOf addr) = true) ∧
      release account s addr = s) := by
  have hget := ppa_bitmap_get_frame s addr
  by_cases htaken : s.Tracked (frameOf addr) ∧ s.bit (frameOf addr) = true
  · refine .inl ⟨htaken.1, htaken.2, ?_⟩
    rw [release, hget]
    simp only [htaken, decide_true, Bool.and_self, Bool.not_true, Bool.false_eq_true, ↓reduceIte]
  · refine .inr ⟨htaken, ?_⟩
    have hclear : (decide (s.Tracked (frameOf addr)) && s.bit (frameOf addr)) = false := by
      simpa using htaken
    rw [release, hget, hclear]
    rfl

/-- Acquiring a page keeps what `ppa_init` has fixed. -/
@[simp] theorem acquire_fixed : (acquire account s addr).fixed = s.fixed := by
  obtain ⟨_, _, h⟩ | ⟨_, _, h⟩ | ⟨_, h⟩ := acquire_cases account s addr <;> simp [h]

/-- It keeps the hint. -/
@[simp] theorem acquire_last_hit : (acquire account s addr).lastHit = s.lastHit := by
  obtain ⟨_, _, h⟩ | ⟨_, _, h⟩ | ⟨_, h⟩ := acquire_cases account s addr <;> simp [h]

/-- `acquire` sets the bit of the frame it is given, if that is tracked, and no other. -/
theorem bit_acquire (j : Nat) :
    (acquire account s addr).bit j = true ↔
      s.bit j = true ∨ (s.Tracked j ∧ j = frameOf addr) := by
  obtain ⟨htracked, hbit, h⟩ | ⟨htracked, hbit, h⟩ | ⟨htracked, h⟩ := acquire_cases account s addr
  · rw [h]
    constructor
    · exact .inl
    · rintro (hj | ⟨_, rfl⟩)
      · exact hj
      · exact hbit
  · rw [h, charge_bit, bit_ppa_bitmap_set, to_nat_div_4096]
    by_cases hj : j = frameOf addr
    · subst hj
      simp [htracked]
    · simp [hj]
  · rw [h, charge_bit]
    constructor
    · exact .inl
    · rintro (hj | ⟨hj, rfl⟩)
      · exact hj
      · exact absurd hj htracked

/-- Releasing a page keeps what `ppa_init` has fixed. -/
@[simp] theorem release_fixed : (release account s addr).fixed = s.fixed := by
  obtain ⟨_, _, h⟩ | ⟨_, h⟩ := release_cases account s addr
  · rw [h]
    exact (refund_fixed account _).trans (ppa_bitmap_set_fixed _ _)
  · rw [h]

/-- `release` clears the bit of the frame it is given, if that is tracked, and no other. -/
theorem bit_release (j : Nat) :
    (release account s addr).bit j = true ↔
      s.bit j = true ∧ ¬ (s.Tracked j ∧ j = frameOf addr) := by
  obtain ⟨htracked, hbit, h⟩ | ⟨htaken, h⟩ := release_cases account s addr
  · have hbits : (release account s addr).bit = (ppaBitmapSet s (addr / 4096) false).2.bit := by
      rw [h]
      exact refund_bit account _
    rw [hbits, bit_ppa_bitmap_set, to_nat_div_4096]
    by_cases hj : j = frameOf addr
    · subst hj
      simp [htracked]
    · simp [hj]
  · rw [h]
    constructor
    · rintro hj
      refine ⟨hj, ?_⟩
      rintro ⟨ht, rfl⟩
      exact htaken ⟨ht, hj⟩
    · exact And.left

/-! ## Ranges of frames -/

/-- Frame `i` is one of the `n` frames from `addr` on, with addresses that wrap at 64 bits. -/
def Covers (addr : BitVec 64) (n : Nat) (i : Nat) : Prop :=
  ∃ k < n, frameOf (addr + BitVec.ofNat 64 (4096 * k)) = i

/-- The loop of `ppa_lckn` and `ppa_rsvn`: `while (n--)`. -/
def acquireLoop (account : Account) (s : PpaState) (addr : BitVec 64) : Nat → PpaState
  | 0 => s
  | n + 1 => acquireLoop account (acquire account s addr) (addr + 4096) n

/-- The body of `ppa_lckn` and `ppa_rsvn`. -/
def acquireN (account : Account) (s : PpaState) (addr n : BitVec 64) : PpaState :=
  acquireLoop account s addr n.toNat

/-- One turn of `ppa_ulckn` and `ppa_ursvn`. The product `4096 * i` is an `int`. -/
def releaseTurn (account : Account) (addr : BitVec 64) (i : BitVec 32) (s : PpaState) :
    Option PpaState :=
  if FitsInt (4096 * i.toInt) then
    some (release account s (addr + BitVec.ofInt 64 (4096 * i.toInt)))
  else none

/-- The body of `ppa_ulckn` and `ppa_ursvn`, `none` when a product overflows. -/
def releaseN (account : Account) (s : PpaState) (addr n : BitVec 64) : Option PpaState :=
  let s := forInt n (fun i s => s.bind (releaseTurn account addr i)) 0 (some s)
  s.map fun s => { s with lastHit := addr / 4096 }

/-- `ppa_lckn`. -/
def ppaLckn : PpaState → BitVec 64 → BitVec 64 → PpaState := acquireN .used

/-- `ppa_rsvn`. -/
def ppaRsvn : PpaState → BitVec 64 → BitVec 64 → PpaState := acquireN .rsvd

/-- `ppa_ulckn`. -/
def ppaUlckn : PpaState → BitVec 64 → BitVec 64 → Option PpaState := releaseN .used

/-- `ppa_ursvn`. -/
def ppaUrsvn : PpaState → BitVec 64 → BitVec 64 → Option PpaState := releaseN .rsvd

/-- The state in which a run goes on after a call. A call that overflows leaves a mark: nothing is
promised about what comes after it. -/
def PpaState.proceed (s : PpaState) : Option PpaState → PpaState
  | some t => t
  | none => { s with overflowed := true }

/-- A range is its first frame and the range after it. -/
theorem covers_succ (addr : BitVec 64) (n i : Nat) :
    Covers addr (n + 1) i ↔ i = frameOf addr ∨ Covers (addr + 4096) n i := by
  have hshift : ∀ k : Nat, addr + 4096 + BitVec.ofNat 64 (4096 * k) =
      addr + BitVec.ofNat 64 (4096 * (k + 1)) := by
    intro k
    apply BitVec.eq_of_toNat_eq
    simp only [BitVec.toNat_add, BitVec.toNat_ofNat, BitVec.ofNat_eq_ofNat]
    omega
  constructor
  · rintro ⟨k, hk, rfl⟩
    cases k with
    | zero => simp
    | succ k => exact .inr ⟨k, by omega, by rw [hshift]⟩
  · rintro (rfl | ⟨k, hk, rfl⟩)
    · exact ⟨0, by omega, by simp⟩
    · exact ⟨k + 1, by omega, by rw [hshift]⟩

/-- A range of page addresses that does not wrap is an interval of frames. -/
theorem covers_iff_of_no_wrap {n : Nat} (h : addr.toNat + 4096 * n ≤ 2 ^ 64) (i : Nat) :
    Covers addr n i ↔ frameOf addr ≤ i ∧ i < frameOf addr + n := by
  have hframe : ∀ k < n, frameOf (addr + BitVec.ofNat 64 (4096 * k)) = frameOf addr + k := by
    intro k hk
    simp only [frameOf, BitVec.toNat_add, BitVec.toNat_ofNat]
    omega
  constructor
  · rintro ⟨k, hk, rfl⟩
    rw [hframe k hk]
    omega
  · rintro ⟨hlo, hhi⟩
    exact ⟨i - frameOf addr, by omega, by rw [hframe _ (by omega)]; omega⟩

/-- A ranged acquire keeps what `ppa_init` has fixed. -/
@[simp] theorem acquire_loop_fixed (n : Nat) : (acquireLoop account s addr n).fixed = s.fixed := by
  induction n generalizing s addr with
  | zero => rfl
  | succ n ih => rw [acquireLoop, ih, acquire_fixed]

/-- It keeps the hint. -/
@[simp] theorem acquire_loop_last_hit (n : Nat) :
    (acquireLoop account s addr n).lastHit = s.lastHit := by
  induction n generalizing s addr with
  | zero => rfl
  | succ n ih => rw [acquireLoop, ih, acquire_last_hit]

/-- The acquiring loop sets the bits of the tracked frames of its range. -/
theorem bit_acquire_loop (n j : Nat) :
    (acquireLoop account s addr n).bit j = true ↔
      s.bit j = true ∨ (s.Tracked j ∧ Covers addr n j) := by
  induction n generalizing s addr with
  | zero => simp [acquireLoop, Covers]
  | succ n ih =>
      rw [acquireLoop, ih, bit_acquire, tracked_of_fixed acquire_fixed, covers_succ,
        and_or_left, or_assoc]

/-- Releasing a list of addresses clears the bits of their frames, those that are tracked. -/
theorem bit_release_all (addrs : List (BitVec 64)) (j : Nat) :
    (addrs.foldl (release account) s).bit j = true ↔
      s.bit j = true ∧ ¬ (s.Tracked j ∧ ∃ addr ∈ addrs, frameOf addr = j) := by
  induction addrs generalizing s with
  | nil => simp
  | cons addr addrs ih =>
      rw [List.foldl_cons, ih, bit_release, tracked_of_fixed release_fixed, and_assoc, ← not_or,
        ← and_or_left, List.exists_mem_cons_iff, @eq_comm _ j]

/-- The pages of a range. -/
def pageAddresses (addr : BitVec 64) (n : Nat) : List (BitVec 64) :=
  (List.range n).map fun k => addr + BitVec.ofNat 64 (4096 * k)

/-- One page more. -/
theorem page_addresses_succ (addr : BitVec 64) (n : Nat) :
    pageAddresses addr (n + 1) = pageAddresses addr n ++ [addr + BitVec.ofNat 64 (4096 * n)] := by
  rw [pageAddresses, List.range_succ, List.map_append]
  rfl

/-- The pages of a range lie in the frames that it covers. -/
theorem page_addresses_reach (addr : BitVec 64) (n i : Nat) :
    (∃ page ∈ pageAddresses addr n, frameOf page = i) ↔ Covers addr n i := by
  simp [pageAddresses, Covers]

/-- A turn whose product is an `int` releases the page of its number. -/
theorem release_turn_eq (account : Account) (addr : BitVec 64) {k : Nat} (hk : k < 2 ^ 19)
    (s : PpaState) :
    releaseTurn account addr (BitVec.ofNat 32 k) s =
      some (release account s (addr + BitVec.ofNat 64 (4096 * k))) := by
  have hint : (BitVec.ofNat 32 k).toInt = k := by
    rw [BitVec.toInt_ofNat']
    exact Int.bmod_eq_of_le (by omega) (by omega)
  have hfits : FitsInt (4096 * (k : Int)) := ⟨by omega, by omega⟩
  have hproduct : BitVec.ofInt 64 (4096 * (k : Int)) = BitVec.ofNat 64 (4096 * k) := by
    rw [← BitVec.ofInt_natCast, Nat.cast_mul]
    rfl
  rw [releaseTurn, hint, if_pos hfits, hproduct]

/-- The turn with the first product that is no `int`. -/
theorem release_turn_overflows (account : Account) (addr : BitVec 64) (s : PpaState) :
    releaseTurn account addr (BitVec.ofNat 32 (2 ^ 19)) s = none := by
  have hint : ¬ FitsInt (4096 * (BitVec.ofNat 32 (2 ^ 19)).toInt) := by decide
  rw [releaseTurn, if_neg hint]

/-- The first turns release the first pages. -/
theorem release_turns_eq (account : Account) (addr : BitVec 64) {n : Nat} (hn : n ≤ 2 ^ 19)
    (s : PpaState) :
    (List.range n).foldl
        (fun (s : Option PpaState) i => s.bind (releaseTurn account addr (BitVec.ofNat 32 i)))
        (some s) =
      some ((pageAddresses addr n).foldl (release account) s) := by
  induction n with
  | zero => rfl
  | succ n ih =>
      rw [List.range_succ, List.foldl_append, ih (by omega), List.foldl_cons, List.foldl_nil,
        Option.bind_some, release_turn_eq account addr (by omega), page_addresses_succ,
        List.foldl_append]
      rfl

/-- A ranged release of at most `2 ^ 19` pages releases each of them. A longer one overflows. -/
theorem release_n_eq (account : Account) (s : PpaState) (addr n : BitVec 64) :
    releaseN account s addr n =
      if n.toNat ≤ 2 ^ 19 then
        some { (pageAddresses addr n.toNat).foldl (release account) s with lastHit := addr / 4096 }
      else none := by
  split
  · next hshort =>
    rw [releaseN, for_int_eq_foldl (by omega), release_turns_eq account addr hshort]
    rfl
  · next hlong =>
    -- turn `2 ^ 19` overflows, and no later turn goes on from there
    have hnone : forInt n (fun i s => s.bind (releaseTurn account addr i)) 0 (some s) = none := by
      rw [for_int_first _ _ (show 2 ^ 19 + 1 ≤ n.toNat by omega) (by decide), List.range_succ,
        List.foldl_append, release_turns_eq account addr (Nat.le_refl _), List.foldl_cons,
        List.foldl_nil, Option.bind_some, release_turn_overflows]
      refine for_int_invariant (fun s : Option PpaState => s = none) n _ ?_ _ rfl
      rintro _ _ rfl
      rfl
    rw [releaseN, hnone]
    rfl

/-- What each release keeps, a run keeps over a ranged release. -/
theorem proceed_release_n (inv : PpaState → Prop) {n : BitVec 64}
    (hrelease : ∀ t addr, inv t → inv (release account t addr))
    (hhit : ∀ t lastHit, inv t → inv { t with lastHit := lastHit })
    (hmark : inv s → inv { s with overflowed := true }) (h : inv s) :
    inv (s.proceed (releaseN account s addr n)) := by
  rw [release_n_eq]
  split
  · have hall : ∀ addrs : List (BitVec 64), inv (addrs.foldl (release account) s) := by
      intro addrs
      exact Runs.run_invariant inv hrelease h addrs
    exact hhit _ _ (hall _)
  · exact hmark h

/-- A ranged release keeps what `ppa_init` has fixed. -/
@[simp] theorem release_n_fixed {n : BitVec 64} :
    (s.proceed (releaseN account s addr n)).fixed = s.fixed :=
  proceed_release_n (fun t => t.fixed = s.fixed) (fun _ _ ht => release_fixed.trans ht)
    (fun _ _ ht => ht) id rfl

/-- Releasing never sets a bit, for any range. -/
theorem bit_of_bit_release_n {n : BitVec 64} {j : Nat}
    (h : (s.proceed (releaseN account s addr n)).bit j = true) : s.bit j = true :=
  proceed_release_n (fun t => t.bit j = true → s.bit j = true)
    (fun _ _ ht hbit => ht ((bit_release j).mp hbit).1) (fun _ _ ht => ht) id id h

/-- The releasing loop clears the bits of the tracked frames of its range, when the range is short
enough for its `int` arithmetic. -/
theorem bit_release_n {n : BitVec 64} (hn : n.toNat ≤ 2 ^ 19) (j : Nat) :
    (s.proceed (releaseN account s addr n)).bit j = true ↔
      s.bit j = true ∧ ¬ (s.Tracked j ∧ Covers addr n.toNat j) := by
  have hbits : (s.proceed (releaseN account s addr n)).bit j =
      ((pageAddresses addr n.toNat).foldl (release account) s).bit j := by
    rw [release_n_eq, if_pos hn]
    simp only [PpaState.proceed, bit]
  rw [hbits, bit_release_all, page_addresses_reach]

/-- Acquiring a page overflows nowhere. -/
@[simp] theorem acquire_overflowed : (acquire account s addr).overflowed = s.overflowed := by
  obtain ⟨_, _, h⟩ | ⟨_, _, h⟩ | ⟨_, h⟩ := acquire_cases account s addr <;> rw [h]
  · cases account <;> simp only [charge, ppa_bitmap_set_overflowed]
  · cases account <;> simp only [charge]

/-- Neither does releasing one. -/
@[simp] theorem release_overflowed : (release account s addr).overflowed = s.overflowed := by
  obtain ⟨_, _, h⟩ | ⟨_, h⟩ := release_cases account s addr <;> rw [h]
  cases account <;> simp only [refund, ppa_bitmap_set_overflowed]

/-- A ranged acquire overflows nowhere: it only adds to an address. -/
@[simp] theorem acquire_loop_overflowed (n : Nat) :
    (acquireLoop account s addr n).overflowed = s.overflowed := by
  induction n generalizing s addr with
  | zero => rfl
  | succ n ih => rw [acquireLoop, ih, acquire_overflowed]

/-- A ranged release leaves a mark exactly when it is longer than `2 ^ 19` pages. -/
theorem overflowed_release_n (n : BitVec 64) :
    (s.proceed (releaseN account s addr n)).overflowed = true ↔
      s.overflowed = true ∨ 2 ^ 19 < n.toNat := by
  rw [release_n_eq]
  split
  · next hshort =>
    have hkept : ((pageAddresses addr n.toNat).foldl (release account) s).overflowed =
        s.overflowed :=
      Runs.run_invariant (fun t : PpaState => t.overflowed = s.overflowed)
        (fun t addr ht => release_overflowed.trans ht) rfl _
    show ((pageAddresses addr n.toNat).foldl (release account) s).overflowed = true ↔ _
    rw [hkept, or_iff_left (not_lt.mpr hshort)]
  · next hlong => exact iff_of_true rfl (.inr (not_le.mp hlong))

end SiStultum
