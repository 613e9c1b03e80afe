import SiStultum.PageFrames.Request
import SiStultum.PageMap.Refinement

/-!
# The two loops of `init_pmm`

`init_pmm` maps every page below `mem_total` and every page of the framebuffer to itself.
`init_pmm_eq_reach` says that its two loops end, and that they are a run of `pmm_map_memory`
calls on a cleared root table. `find_init_reach` is what the tables translate afterwards, when
the allocator answered with fresh pages.
-/

namespace SiStultum

open PpaState

/-- What the kernel keeps of its memory: the page tables with the allocator behind them, and the
register that `set_pml4` loads. -/
structure KernelState where
  pmm : PmmState PpaState
  cr3 : BitVec 64

/-- A loop of `init_pmm`: map the pages from `addr` up to the limit to themselves, in at most `fuel`
rounds. The limit is evaluated in every round. -/
def mapIdentity (limit : PmmState PpaState → BitVec 64) :
    Nat → BitVec 64 → PmmState PpaState → Option (PmmState PpaState)
  | 0, addr, s => if addr < limit s then none else some s
  | fuel + 1, addr, s =>
      if addr < limit s then
        mapIdentity limit fuel (addr + 4096) (pmmMapMemory ppaRequest s addr addr)
      else some s

/-- `init_pmm`, with at most `fuel` rounds of each loop. -/
def initPmm (fuel : Nat) (k : KernelState) (fbbase fbsize : BitVec 64) : Option KernelState := do
  let (pml4, ppa) := ppaRequest k.pmm.ppa
  let s := { k.pmm with mem := ppaMemset k.pmm.mem pml4 0 4096, ppa := ppa }
  let s := pmmInitPml4 s pml4
  let s ← mapIdentity (fun s => s.ppa.memTotal) fuel 0 s
  let s ← mapIdentity (fun _ => fbbase + fbsize) fuel fbbase s
  some { pmm := s, cr3 := pml4 }

/-- The kernel before `init_pmm`. -/
def kernelBoot (mem : ByteMemory) (ppa : PpaState) : KernelState where
  pmm := pmmBoot mem ppa
  cr3 := 0

/-- The address lies in the framebuffer. -/
def InFramebuffer (fbbase fbsize addr : BitVec 64) : Prop :=
  fbbase.toNat ≤ addr.toNat ∧ addr.toNat < fbbase.toNat + fbsize.toNat

instance (fbbase fbsize addr : BitVec 64) : Decidable (InFramebuffer fbbase fbsize addr) :=
  inferInstanceAs (Decidable (_ ∧ _))

/-- Every `ppa_request` of `init_pmm`, the one for the root table included, returned a page that is
not 0 and that no other request returned. -/
structure FreshAnswers (k : KernelState) : Prop where
  nodup : (k.pmm.pml4 :: k.pmm.frames).Nodup
  ne_zero : ∀ frame ∈ k.pmm.pml4 :: k.pmm.frames, frame ≠ 0
  aligned : ∀ frame ∈ k.pmm.pml4 :: k.pmm.frames, PageAligned frame

/-! ## The pages of a loop -/

/-- The `n` page addresses from `addr` on. -/
def pagesFrom (addr : BitVec 64) : Nat → List (BitVec 64)
  | 0 => []
  | n + 1 => addr :: pagesFrom (addr + 4096) n

/-- The number of rounds of a loop from `addr` up to `limit`. -/
def rounds (addr limit : BitVec 64) : Nat :=
  (limit.toNat - addr.toNat + 4095) / 4096

/-- Calls that map pages to themselves. -/
def identityOps (pages : List (BitVec 64)) : List (PmmOp PpaState) :=
  pages.map fun page => .map page page

/-- No page. -/
theorem pages_from_zero (addr : BitVec 64) : pagesFrom addr 0 = [] :=
  rfl

/-- One page, and the pages after it. -/
theorem pages_from_succ (addr : BitVec 64) (n : Nat) :
    pagesFrom addr (n + 1) = addr :: pagesFrom (addr + 4096) n :=
  rfl

section IdentityRuns

variable (s : PmmState PpaState)

/-- No page is mapped. -/
theorem run_identity_nil : Runs.run (pmmStep ppaRequest) s (identityOps []) = s :=
  rfl

/-- One page is mapped, and then the others. -/
theorem run_identity_cons (page : BitVec 64) (pages : List (BitVec 64)) :
    Runs.run (pmmStep ppaRequest) s (identityOps (page :: pages)) =
      Runs.run (pmmStep ppaRequest) (pmmMapMemory ppaRequest s page page) (identityOps pages) :=
  rfl

/-- The pages of two lists are mapped one list after the other. -/
theorem run_identity_append (first second : List (BitVec 64)) :
    Runs.run (pmmStep ppaRequest) s (identityOps (first ++ second)) =
      Runs.run (pmmStep ppaRequest) (Runs.run (pmmStep ppaRequest) s (identityOps first))
        (identityOps second) := by
  rw [identityOps, List.map_append, Runs.run_append, identityOps, identityOps]

end IdentityRuns

/-- The pages from an address on, by their distance from it. -/
theorem mem_pages_from {n : Nat} {addr page : BitVec 64} (hn : addr.toNat + 4096 * n ≤ 2 ^ 64) :
    page ∈ pagesFrom addr n ↔ ∃ k < n, page.toNat = addr.toNat + 4096 * k := by
  induction n generalizing addr with
  | zero => simp [pagesFrom]
  | succ n ih =>
      rw [pagesFrom, List.mem_cons]
      by_cases hlast : n = 0
      · subst hlast
        simp [pagesFrom, BitVec.toNat_eq]
      · have hnext : (addr + 4096).toNat = addr.toNat + 4096 := by bv_omega
        rw [ih (by omega), hnext]
        constructor
        · rintro (rfl | ⟨k, hk, hpage⟩)
          · exact ⟨0, by omega, by omega⟩
          · exact ⟨k + 1, by omega, by omega⟩
        · rintro ⟨k, hk, hpage⟩
          cases k with
          | zero => exact Or.inl (BitVec.eq_of_toNat_eq (by omega))
          | succ k => exact Or.inr ⟨k, by omega, by omega⟩

/-- The pages of a loop are the pages from its start up to its limit. -/
theorem mem_loop_pages {addr limit page : BitVec 64} (haddr : PageAligned addr)
    (hlimit : limit.toNat ≤ 2 ^ 48) (haddrlow : addr.toNat ≤ 2 ^ 48) :
    page ∈ pagesFrom addr (rounds addr limit) ↔
      PageAligned page ∧ addr.toNat ≤ page.toNat ∧ page.toNat < limit.toNat := by
  unfold PageAligned at haddr ⊢
  rw [mem_pages_from (by unfold rounds; omega)]
  unfold rounds
  constructor
  · rintro ⟨k, hk, hpage⟩
    omega
  · rintro ⟨haligned, hlow, hhigh⟩
    exact ⟨(page.toNat - addr.toNat) / 4096, by omega, by omega⟩

/-- A loop whose limit does not change is a run of its calls. -/
theorem map_identity_eq_run (limit : PmmState PpaState → BitVec 64) {bound : BitVec 64}
    (inv : PmmState PpaState → Prop) (hlimit : ∀ s, inv s → limit s = bound)
    (hinv : ∀ s addr, inv s → inv (pmmMapMemory ppaRequest s addr addr))
    (hbound : bound.toNat ≤ 2 ^ 48) {fuel : Nat} {addr : BitVec 64} {s : PmmState PpaState}
    (h : inv s) (hfuel : rounds addr bound ≤ fuel) :
    mapIdentity limit fuel addr s =
      some (Runs.run (pmmStep ppaRequest) s
        (identityOps (pagesFrom addr (rounds addr bound)))) := by
  -- on the fuel: a round adds one page below the limit, and the last test finds none left
  induction fuel generalizing addr s with
  | zero =>
      have hdone : ¬ addr < bound := by
        unfold rounds at hfuel
        rw [BitVec.lt_def]
        omega
      have hnone : rounds addr bound = 0 := by omega
      rw [mapIdentity, hlimit s h, if_neg hdone, hnone]
      rfl
  | succ fuel ih =>
      rw [mapIdentity, hlimit s h]
      split
      · next hlt =>
          rw [BitVec.lt_def] at hlt
          have hnext : (addr + 4096).toNat = addr.toNat + 4096 := by bv_omega
          have hrounds : rounds addr bound = rounds (addr + 4096) bound + 1 := by
            unfold rounds
            omega
          rw [ih (hinv s addr h) (by omega), hrounds]
          rfl
      · next hdone =>
          rw [BitVec.lt_def] at hdone
          have hnone : rounds addr bound = 0 := by
            unfold rounds
            omega
          rw [hnone]
          rfl

/-! ## What the calls leave of the allocator -/

/-- A property of the allocator that a request keeps, and that makes its answers meet `P`, holds
after a call, and all its answers meet `P`. -/
theorem answers_map {σ : Type*} {request : σ → BitVec 64 × σ} {good : σ → Prop}
    {P : BitVec 64 → Prop} (hrequest : ∀ ppa, good ppa → P (request ppa).1 ∧ good (request ppa).2)
    {s : PmmState σ} (hgood : good s.ppa) (hframes : ∀ frame ∈ s.frames, P frame)
    (vaddr paddr : BitVec 64) :
    good (pmmMapMemory request s vaddr paddr).ppa ∧
      ∀ frame ∈ (pmmMapMemory request s vaddr paddr).frames, P frame := by
  have hdescend : ∀ (t : PmmState σ) (table index : BitVec 64),
      (good t.ppa ∧ ∀ frame ∈ t.frames, P frame) →
      good (pmmDescend request t table index).2.ppa ∧
        ∀ frame ∈ (pmmDescend request t table index).2.frames, P frame := by
    rintro t table index ⟨hgoodt, hframest⟩
    obtain ⟨-, hstep⟩ | ⟨-, answer, ppa, linked, hanswer, -, hstep⟩ :=
      pmm_descend_cases request t table index
    · rw [hstep]
      exact ⟨hgoodt, hframest⟩
    · have hnext := hrequest t.ppa hgoodt
      rw [hanswer] at hnext
      have hmore : (pmmDescend request t table index).2.frames = t.frames ++ [answer] := by
        rw [hstep]
        simp [PmmState.frames, PmmEvent.answer]
      rw [hmore, hstep]
      refine ⟨hnext.2, ?_⟩
      intro frame hframe
      rcases List.mem_append.mp hframe with hold | hnew
      · exact hframest frame hold
      · rw [List.mem_singleton.mp hnew]
        exact hnext.1
  rw [map_eq_set_leaf, frames_set_leaf]
  exact hdescend _ _ _ (hdescend _ _ _ (hdescend s s.pml4 _ ⟨hgood, hframes⟩))

/-- The total is `total` and the bitmap is short enough for all its frames to lie below 2 ^ 52. -/
def ShortBitmap (total : BitVec 64) (ppa : PpaState) : Prop :=
  ppa.memTotal = total ∧ 32 * ppa.bitmap.size.toNat ≤ 2 ^ 40

/-- A request on a short bitmap returns an address that an entry can hold. -/
theorem short_bitmap_request {total : BitVec 64} {ppa : PpaState} (h : ShortBitmap total ppa) :
    (ppaRequest ppa).1.toNat < 2 ^ 52 ∧ ShortBitmap total (ppaRequest ppa).2 := by
  obtain ⟨htotal, hsize⟩ := h
  have hsized : ppa.Sized := Nat.le_trans hsize (by omega)
  have hfixed := ppa_request_fixed (s := ppa)
  constructor
  · cases hscan : ppaScan ppa with
    | none => simp [ppaRequest, hscan]
    | some index =>
        obtain ⟨-, hend, -⟩ := scan_eq_some hsized.indexed hscan
        have haddr := (frame_of_index hsized hend).1
        have hfirst : (ppaRequest ppa).1 = index * 4096 := by simp [ppaRequest, hscan]
        rw [hfirst, haddr]
        omega
  · simp only [fixed, Prod.mk.injEq] at hfixed
    exact ⟨hfixed.2.2.2.1.trans htotal, by rw [hfixed.1]; exact hsize⟩

/-- The allocator behind the tables has a short bitmap, and all its answers so far lie below
2 ^ 52. -/
def Supplied (total : BitVec 64) (s : PmmState PpaState) : Prop :=
  ShortBitmap total s.ppa ∧ ∀ frame ∈ s.frames, frame.toNat < 2 ^ 52

/-- A mapping keeps the supply of frames. -/
theorem supplied_map {total : BitVec 64} {s : PmmState PpaState} (h : Supplied total s)
    (vaddr paddr : BitVec 64) : Supplied total (pmmMapMemory ppaRequest s vaddr paddr) :=
  answers_map (fun _ => short_bitmap_request) h.1 h.2 vaddr paddr

/-! ## The mapped pages -/

/-- A run only adds frames to those it has got. -/
theorem frames_run {σ : Type*} (request : σ → BitVec 64 × σ) (s : PmmState σ)
    (ops : List (PmmOp σ)) :
    ∃ more, (Runs.run (pmmStep request) s ops).frames = s.frames ++ more := by
  induction ops generalizing s with
  | nil => exact ⟨[], (List.append_nil _).symm⟩
  | cons op ops ih =>
      obtain ⟨more, hmore⟩ := ih (pmmStep request s op)
      cases op with
      | map vaddr paddr =>
          obtain ⟨first, hfirst⟩ := frames_map request s vaddr paddr
          refine ⟨first ++ more, ?_⟩
          rw [Runs.run_cons, hmore, pmmStep, hfirst, List.append_assoc]
      | elsewhere mem ppa => exact ⟨more, hmore⟩

/-- A run keeps the root of the page tables. -/
theorem pml4_run (s : PmmState PpaState) (pages : List (BitVec 64)) :
    (Runs.run (pmmStep ppaRequest) s (identityOps pages)).pml4 = s.pml4 := by
  induction pages generalizing s with
  | nil => rfl
  | cons page pages ih => exact (ih _).trans (pml4_map ppaRequest s page page)

/-- A run keeps the supply of frames. -/
theorem supplied_run {total : BitVec 64} {s : PmmState PpaState} (h : Supplied total s)
    (pages : List (BitVec 64)) :
    Supplied total (Runs.run (pmmStep ppaRequest) s (identityOps pages)) := by
  induction pages generalizing s with
  | nil => exact h
  | cons page pages ih => exact ih (supplied_map h page page)

/-- When all answers of a run of calls are fresh, they are fresh for every call. -/
theorem admits_identity_ops {s : PmmState PpaState} {pages : List (BitVec 64)}
    (h : FreshFrames s.pml4 (Runs.run (pmmStep ppaRequest) s (identityOps pages)).frames) :
    Runs.Meets (pmmStep ppaRequest) (PmmAdmits ppaRequest) s (identityOps pages) := by
  induction pages generalizing s with
  | nil => trivial
  | cons page pages ih =>
      obtain ⟨more, hmore⟩ := frames_run ppaRequest
        (pmmMapMemory ppaRequest s page page) (identityOps pages)
      have hroot := pml4_map ppaRequest s page page
      have hfirst : FreshFrames s.pml4 (pmmMapMemory ppaRequest s page page).frames :=
        (hmore ▸ h : FreshFrames s.pml4 (_ ++ more)).of_append
      exact ⟨hfirst, ih (hroot.symm ▸ h)⟩

/-- Pages below `2 ^ 48` with the same number are the same. -/
theorem page_number_inj {page other : BitVec 64} (hpage : PageAligned page)
    (hother : PageAligned other) (hpagelow : page.toNat < 2 ^ 48) (hotherlow : other.toNat < 2 ^ 48)
    (h : pageNumber page = pageNumber other) : page = other := by
  unfold PageAligned at hpage hother
  rw [← BitVec.toNat_inj, page_number_to_nat, page_number_to_nat] at h
  apply BitVec.eq_of_toNat_eq
  omega

/-- The last image of a page, when pages are only mapped to themselves. -/
theorem last_mapped_identity {pages : List (BitVec 64)}
    (hpages : ∀ page ∈ pages, PageAligned page ∧ page.toNat < 2 ^ 48) {page : BitVec 64}
    (hpage : PageAligned page) (hlow : page.toNat < 2 ^ 48) :
    lastMapped (identityOps pages) (pageNumber page) =
      if page ∈ pages then some page else none := by
  induction pages with
  | nil => rfl
  | cons first pages ih =>
      have hsplit : lastMapped (identityOps (first :: pages)) (pageNumber page) =
          (lastMapped (identityOps pages) (pageNumber page)).or
            (PmmOp.mapped (σ := PpaState) (pageNumber page) (.map first first)) :=
        Search.last_some_cons _ _ _
      have hfirst := hpages first (List.mem_cons_self ..)
      rw [hsplit, ih fun other hother => hpages other (List.mem_cons_of_mem first hother),
        PmmOp.mapped]
      by_cases hin : page ∈ pages
      · simp [hin]
      · by_cases hsame : page = first
        · subst hsame
          simp [hin]
        · have hne : pageNumber first ≠ pageNumber page := fun heq =>
            hsame (page_number_inj hfirst.1 hpage hfirst.2 hlow heq).symm
          simp [hin, hsame, hne]

/-- The pages that `init_pmm` maps when the total is `total`. -/
def initPages (total fbbase fbsize : BitVec 64) : List (BitVec 64) :=
  pagesFrom 0 (rounds 0 total) ++ pagesFrom fbbase (rounds fbbase (fbbase + fbsize))

/-- The page tables that `init_pmm` leaves: a run of calls from a cleared root table. -/
def initReach (mem : ByteMemory) (ppa : PpaState) (fbbase fbsize : BitVec 64) :
    PmmState PpaState :=
  pmmReach ppaRequest (ppaMemset mem (ppaRequest ppa).1 0 4096) (ppaRequest ppa).2
    (ppaRequest ppa).1 (identityOps (initPages ppa.memTotal fbbase fbsize))

/-- The tables before the first call. -/
def initStart (mem : ByteMemory) (ppa : PpaState) : PmmState PpaState :=
  pmmInitPml4 (pmmBoot (ppaMemset mem (ppaRequest ppa).1 0 4096) (ppaRequest ppa).2)
    (ppaRequest ppa).1

/-- `init_pmm` maps its pages in one run. -/
theorem init_reach_eq_run (mem : ByteMemory) (ppa : PpaState) (fbbase fbsize : BitVec 64) :
    initReach mem ppa fbbase fbsize = Runs.run (pmmStep ppaRequest) (initStart mem ppa)
      (identityOps (initPages ppa.memTotal fbbase fbsize)) :=
  rfl

/-- The supply of frames at the beginning of `init_pmm`. -/
theorem supplied_start {total : BitVec 64} {ppa : PpaState} (h : ShortBitmap total ppa)
    (mem : ByteMemory) : Supplied total (initStart mem ppa) := by
  refine ⟨(short_bitmap_request h).2, ?_⟩
  intro frame hframe
  cases hframe

/-- `init_pmm` begins without a frame. -/
theorem init_start_frames (mem : ByteMemory) (ppa : PpaState) :
    (initStart mem ppa).frames = [] := by
  unfold initStart
  generalize ppaMemset mem (ppaRequest ppa).1 0 4096 = cleared
  rfl

/-- The root is the first frame that is requested. -/
theorem init_start_pml4 (mem : ByteMemory) (ppa : PpaState) :
    (initStart mem ppa).pml4 = (ppaRequest ppa).1 := by
  unfold initStart
  generalize ppaMemset mem (ppaRequest ppa).1 0 4096 = cleared
  rfl

/-- The allocator has served that one request. -/
theorem init_start_ppa (mem : ByteMemory) (ppa : PpaState) :
    (initStart mem ppa).ppa = (ppaRequest ppa).2 := by
  unfold initStart
  generalize ppaMemset mem (ppaRequest ppa).1 0 4096 = cleared
  rfl

/-- The cleared root is the tree without a mapping. -/
theorem init_start_represents {ppa : PpaState} (h : PageAligned (ppaRequest ppa).1)
    (mem : ByteMemory) :
    Represents (initStart mem ppa) (PageTree.root (ppaRequest ppa).1) := by
  have hcleared : ∀ index, index.toNat < 512 →
      tableEntry (ppaMemset mem (ppaRequest ppa).1 0 4096) (ppaRequest ppa).1 index = 0 :=
    fun _ hindex => entry_memset_same hindex
  unfold initStart
  generalize ppaMemset mem (ppaRequest ppa).1 0 4096 = cleared at hcleared ⊢
  refine init_pml4_represents h hcleared ?_
  constructor <;> simp [PmmState.frames, pmmBoot]

/-- `init_pmm` is its two loops, one after the other. -/
theorem init_pmm_eq_loops (fuel : Nat) (mem : ByteMemory) (ppa : PpaState)
    (fbbase fbsize : BitVec 64) :
    initPmm fuel (kernelBoot mem ppa) fbbase fbsize =
      (mapIdentity (fun s => s.ppa.memTotal) fuel 0 (initStart mem ppa)).bind fun s =>
        (mapIdentity (fun _ => fbbase + fbsize) fuel fbbase s).bind fun s =>
          some { pmm := s, cr3 := (ppaRequest ppa).1 } :=
  rfl

/-- `init_pmm` returns, with the tables of its run of calls. -/
theorem init_pmm_eq_reach {ppa : PpaState} (hshort : ShortBitmap ppa.memTotal ppa)
    (htotal : ppa.memTotal.toNat ≤ 2 ^ 48) {fbbase fbsize : BitVec 64}
    (hend : fbbase.toNat + fbsize.toNat ≤ 2 ^ 48) (mem : ByteMemory) {fuel : Nat}
    (hfuel : 2 ^ 36 ≤ fuel) :
    initPmm fuel (kernelBoot mem ppa) fbbase fbsize =
      some { pmm := initReach mem ppa fbbase fbsize, cr3 := (ppaRequest ppa).1 } := by
  have hfbend : (fbbase + fbsize).toNat = fbbase.toNat + fbsize.toNat := by bv_omega
  have hrounds : rounds 0 ppa.memTotal ≤ fuel := by
    unfold rounds
    omega
  have hfbrounds : rounds fbbase (fbbase + fbsize) ≤ fuel := by
    unfold rounds
    omega
  have hstart := supplied_start hshort mem
  have hfirst := map_identity_eq_run (fun s => s.ppa.memTotal)
    (Supplied ppa.memTotal) (fun _ h => h.1.1) (fun _ addr h => supplied_map h addr addr)
    htotal hstart hrounds
  have hsecond := map_identity_eq_run (fun _ => fbbase + fbsize)
    (Supplied ppa.memTotal) (fun _ _ => rfl) (fun _ addr h => supplied_map h addr addr)
    (by omega) (supplied_run hstart (pagesFrom 0 (rounds 0 ppa.memTotal))) hfbrounds
  rw [init_pmm_eq_loops, hfirst, Option.bind_some, hsecond, Option.bind_some, init_reach_eq_run,
    initPages, run_identity_append]

/-- The tables translate exactly the pages that were mapped. -/
theorem find_init_reach {ppa : PpaState} (hshort : ShortBitmap ppa.memTotal ppa)
    (htotal : ppa.memTotal.toNat ≤ 2 ^ 48) {fbbase fbsize : BitVec 64} (hbase : PageAligned fbbase)
    (hend : fbbase.toNat + fbsize.toNat ≤ 2 ^ 48) (mem : ByteMemory)
    (hfresh : FreshAnswers { pmm := initReach mem ppa fbbase fbsize, cr3 := (ppaRequest ppa).1 })
    {page : BitVec 64} (hpage : PageAligned page) (hlow : page.toNat < 2 ^ 48) :
    pmmFindPaddr (initReach mem ppa fbbase fbsize) page =
      if page.toNat < ppa.memTotal.toNat ∨ InFramebuffer fbbase fbsize page then page else 0 := by
  have hfbend : (fbbase + fbsize).toNat = fbbase.toNat + fbsize.toNat := by bv_omega
  have hmem : ∀ other, other ∈ initPages ppa.memTotal fbbase fbsize ↔ PageAligned other ∧
      (other.toNat < ppa.memTotal.toNat ∨ InFramebuffer fbbase fbsize other) := by
    intro other
    rw [initPages, List.mem_append, mem_loop_pages (by decide) htotal (by decide),
      mem_loop_pages hbase (by omega) (by omega), hfbend, InFramebuffer, and_or_left]
    have hzero : (0 : BitVec 64).toNat ≤ other.toNat := Nat.zero_le _
    simp only [hzero, true_and]
  have hroot : (initReach mem ppa fbbase fbsize).pml4 = (ppaRequest ppa).1 := by
    rw [init_reach_eq_run, pml4_run]
    rfl
  have hsupplied := supplied_run (supplied_start hshort mem)
    (initPages ppa.memTotal fbbase fbsize)
  rw [← init_reach_eq_run] at hsupplied
  obtain ⟨hnodup, hzero, haligned⟩ := hfresh
  simp only [hroot, List.nodup_cons, List.forall_mem_cons] at hnodup hzero haligned
  have hfrees : FreshFrames (ppaRequest ppa).1 (initReach mem ppa fbbase fbsize).frames :=
    ⟨hnodup.2, hzero.2, fun frame hframe hsame => hnodup.1 (hsame ▸ hframe), haligned.2,
      hsupplied.2⟩
  -- the lookup is that of the abstract page map, where every page that was mapped maps to itself
  have hrefines := refines_find (refines_reach haligned.1
    (fun index hindex => entry_memset_same hindex)
    (admits_identity_ops (s := initStart mem ppa) hfrees)) page
  rw [run_page_map, Option.or_none, last_mapped_identity _ hpage hlow] at hrefines
  · rw [initReach, hrefines]
    by_cases hin : page.toNat < ppa.memTotal.toNat ∨ InFramebuffer fbbase fbsize page
    · rw [if_pos ((hmem page).mpr ⟨hpage, hin⟩), if_pos hin, Option.map_some, Option.getD_some,
        frame_field_eq_self hpage (by omega)]
    · rw [if_neg fun h => hin ((hmem page).mp h).2, if_neg hin]
      rfl
  · intro other hother
    obtain ⟨hotheraligned, hotherin⟩ := (hmem other).mp hother
    unfold InFramebuffer at hotherin
    exact ⟨hotheraligned, by omega⟩

end SiStultum
