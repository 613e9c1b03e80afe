import Mathlib.Data.List.Nodup
import SiStultum.Library.Runs
import SiStultum.Library.Search
import SiStultum.PageMap.Tree

/-!
# The page tables are a finite map

Seen from outside, the tables are a map from page numbers, bits 12..47 of an address, to
addresses. `PageMap.step` is the abstract step of that map, and `refines_step` says that each
call of `pmm_map_memory` simulates it, whatever code runs in between without writing to the
tables. `find_paddr_refines_page_map` is the result for whole runs.
-/

namespace SiStultum

/-- The page number of an address: bits 12..47. -/
def pageNumber (vaddr : BitVec 64) : BitVec 36 :=
  vaddr.extractLsb' 12 36

/-- What can happen after `pmm_init_pml4`: a call of `pmm_map_memory`, or other code that leaves a
memory and a state of the allocator. -/
inductive PmmOp (σ : Type*) where
  | map (vaddr paddr : BitVec 64)
  | elsewhere (mem : ByteMemory) (ppa : σ)

/-- One step. -/
def pmmStep {σ : Type*} (request : σ → BitVec 64 × σ) (s : PmmState σ) : PmmOp σ → PmmState σ
  | .map vaddr paddr => pmmMapMemory request s vaddr paddr
  | .elsewhere mem ppa => { s with mem := mem, ppa := ppa }

/-- The state before `pmm_init_pml4`, with a null root table. -/
def pmmBoot {σ : Type*} (mem : ByteMemory) (ppa : σ) : PmmState σ where
  mem := mem
  pml4 := 0
  ppa := ppa
  trace := []

/-- The state after `pmm_init_pml4` and the operations that follow it. -/
def pmmReach {σ : Type*} (request : σ → BitVec 64 × σ) (mem : ByteMemory) (ppa : σ)
    (pml4 : BitVec 64) (ops : List (PmmOp σ)) : PmmState σ :=
  Runs.run (pmmStep request) (pmmInitPml4 (pmmBoot mem ppa) pml4) ops

/-- The allocator answers the requests of a call with fresh frames, and other code does not write
to the frames of tables. -/
def PmmAdmits {σ : Type*} (request : σ → BitVec 64 × σ) (s : PmmState σ) : PmmOp σ → Prop
  | .map vaddr paddr => FreshFrames s.pml4 (pmmMapMemory request s vaddr paddr).frames
  | .elsewhere mem _ => ∀ frame, frame = s.pml4 ∨ frame ∈ s.frames → ∀ offset < 4096,
      mem (frame + BitVec.ofNat 64 offset) = s.mem (frame + BitVec.ofNat 64 offset)

/-! ## The abstract map -/

/-- A finite map from page numbers to the addresses they were mapped to. -/
abbrev PageMap := BitVec 36 → Option (BitVec 64)

/-- Mapping a page overwrites its image; other code changes nothing. -/
def PageMap.step {σ : Type*} (view : PageMap) : PmmOp σ → PageMap
  | .map vaddr paddr => Function.update view (pageNumber vaddr) (some paddr)
  | .elsewhere _ _ => view

/-- The image that an operation gives to a page. -/
def PmmOp.mapped {σ : Type*} (page : BitVec 36) : PmmOp σ → Option (BitVec 64)
  | .map vaddr paddr => if pageNumber vaddr = page then some paddr else none
  | .elsewhere _ _ => none

/-- The image given by the last call for the page. -/
def lastMapped {σ : Type*} (ops : List (PmmOp σ)) (page : BitVec 36) : Option (BitVec 64) :=
  Search.lastSome (PmmOp.mapped page) ops

/-- The state of the tables simulates a map. -/
def Refines {σ : Type*} (s : PmmState σ) (view : PageMap) : Prop :=
  ∃ tree, Represents s tree ∧ ∀ vaddr, tree.leaf (pagePath vaddr) = view (pageNumber vaddr)

variable {σ : Type*} {request : σ → BitVec 64 × σ} {s : PmmState σ} {view : PageMap}

/-- The last write to a page is what the map holds. -/
theorem run_page_map (view : PageMap) (ops : List (PmmOp σ)) (page : BitVec 36) :
    Runs.run PageMap.step view ops page = (lastMapped ops page).or (view page) := by
  induction ops generalizing view with
  | nil => rfl
  | cons op ops ih =>
      have hop : PageMap.step view op page = (PmmOp.mapped page op).or (view page) := by
        cases op with
        | map vaddr paddr =>
            rw [PageMap.step, Function.update_apply, PmmOp.mapped]
            split
            · next h => rw [if_pos h.symm, Option.some_or]
            · next h => rw [if_neg (Ne.symm h), Option.none_or]
        | elsewhere mem ppa => rfl
      rw [Runs.run_cons, ih, hop, lastMapped, lastMapped, Search.last_some_cons, Option.or_assoc]

/-- The number of a page as a quotient. -/
theorem page_number_to_nat (vaddr : BitVec 64) :
    (pageNumber vaddr).toNat = vaddr.toNat / 2 ^ 12 % 2 ^ 36 := by
  rw [pageNumber, BitVec.extractLsb'_toNat, Nat.shiftRight_eq_div_pow]

/-- Two addresses have the same path exactly when they agree on bits 12..47. -/
theorem page_path_eq_iff (vaddr other : BitVec 64) :
    pagePath vaddr = pagePath other ↔ pageNumber vaddr = pageNumber other := by
  unfold pagePath
  simp only [List.cons.injEq, and_true, ← BitVec.toNat_inj, pmm_index_to_nat, page_number_to_nat]
  omega

/-- `pmm_find_paddr` looks up the finite map. -/
theorem refines_find (h : Refines s view) (vaddr : BitVec 64) :
    pmmFindPaddr s vaddr = ((view (pageNumber vaddr)).map frameField).getD 0 := by
  obtain ⟨tree, hrep, hview⟩ := h
  rw [find_represents hrep, hview]

/-- Entries of tables that other code leaves alone. -/
theorem table_entry_elsewhere {mem after : ByteMemory} {table index : BitVec 64}
    (hindex : index.toNat < 512)
    (hkept : ∀ offset < 4096,
      after (table + BitVec.ofNat 64 offset) = mem (table + BitVec.ofNat 64 offset)) :
    tableEntry after table index = tableEntry mem table index := by
  apply ByteMemory.read_congr
  intro k hk
  have hbyte : table + 8 * index + BitVec.ofNat 64 k =
      table + BitVec.ofNat 64 (8 * index.toNat + k) := by
    bv_omega
  rw [hbyte]
  exact hkept _ (by omega)

/-- Code that leaves the tables alone leaves the tree that they hold. -/
theorem represents_elsewhere {tree : PageTree} (h : Represents s tree) {mem : ByteMemory} {ppa : σ}
    (hadmits : PmmAdmits request s (.elsewhere mem ppa)) :
    Represents (pmmStep request s (.elsewhere mem ppa)) tree := by
  have hentry : ∀ path table index, tree.table path = some table → index.toNat < 512 →
      tableEntry mem table index = tableEntry s.mem table index := by
    intro path table index htable hindex
    exact table_entry_elsewhere hindex (hadmits table (h.root_or_taken htable))
  constructor
  case root => exact h.root
  case root_aligned => exact h.root_aligned
  case fresh => exact h.fresh
  case taken => exact h.taken
  case injective => exact h.injective
  case table_closed => exact h.table_closed
  case leaf_closed => exact h.leaf_closed
  case inner =>
    intro path table index htable hlen hindex
    exact (hentry path table index htable hindex).trans
      (h.inner path table index htable hlen hindex)
  case outer =>
    intro path table index htable hlen hindex
    exact (hentry path table index htable hindex).trans
      (h.outer path table index htable hlen hindex)

/-- One step of the tables simulates one step of the map. -/
theorem refines_step (s : PmmState σ) (view : PageMap) (op : PmmOp σ) (h : Refines s view)
    (hadmits : PmmAdmits request s op) : Refines (pmmStep request s op) (view.step op) := by
  obtain ⟨tree, hrep, hview⟩ := h
  cases op with
  | map vaddr paddr =>
      obtain ⟨larger, hlarger, -, -, hleaf⟩ := map_represents hrep hadmits
      refine ⟨larger, hlarger, ?_⟩
      intro other
      rw [hleaf, Function.update_apply, PageMap.step, Function.update_apply, hview]
      simp only [page_path_eq_iff]
  | elsewhere mem ppa => exact ⟨tree, represents_elsewhere hrep hadmits, hview⟩

/-- The tables after any run refine the map after it. -/
theorem refines_reach {mem : ByteMemory} {ppa : σ} {pml4 : BitVec 64} (haligned : PageAligned pml4)
    (hzero : ∀ index, index.toNat < 512 → tableEntry mem pml4 index = 0) {ops : List (PmmOp σ)}
    (hadmits : Runs.Meets (pmmStep request) (PmmAdmits request)
      (pmmInitPml4 (pmmBoot mem ppa) pml4) ops) :
    Refines (pmmReach request mem ppa pml4 ops) (Runs.run PageMap.step (fun _ => none) ops) := by
  have hnone : FreshFrames pml4 (pmmBoot mem ppa).frames := by
    constructor <;> simp [PmmState.frames, pmmBoot]
  have hinit : Refines (pmmInitPml4 (pmmBoot mem ppa) pml4) (fun _ => none) :=
    ⟨PageTree.root pml4, init_pml4_represents haligned hzero hnone, fun _ => rfl⟩
  exact Runs.run_simulates Refines (PmmAdmits request) PageMap.step refines_step hinit hadmits

/-- From a zeroed root table, and with fresh frames from the allocator, `pmm_find_paddr` returns the
frame field of the address that the last call for the same page mapped, and 0 for a page that was
never mapped. In particular a call changes the translation of its own page only. -/
theorem find_paddr_refines_page_map (request : σ → BitVec 64 × σ) {mem : ByteMemory} {ppa : σ}
    {pml4 : BitVec 64} (haligned : PageAligned pml4)
    (hzero : ∀ index, index.toNat < 512 → tableEntry mem pml4 index = 0) {ops : List (PmmOp σ)}
    (hadmits : Runs.Meets (pmmStep request) (PmmAdmits request)
      (pmmInitPml4 (pmmBoot mem ppa) pml4) ops) (vaddr : BitVec 64) :
    pmmFindPaddr (pmmReach request mem ppa pml4 ops) vaddr =
        ((lastMapped ops (pageNumber vaddr)).map frameField).getD 0 ∧
      ∀ first other paddr, ops = first ++ [.map other paddr] →
        pageNumber other ≠ pageNumber vaddr →
        pmmFindPaddr (pmmReach request mem ppa pml4 ops) vaddr =
          pmmFindPaddr (pmmReach request mem ppa pml4 first) vaddr := by
  have hfind := refines_find (refines_reach haligned hzero hadmits) vaddr
  rw [run_page_map, Option.or_none] at hfind
  refine ⟨hfind, ?_⟩
  rintro first other paddr rfl hpage
  have hbefore := refines_find (refines_reach haligned hzero hadmits.left) vaddr
  rw [run_page_map, Option.or_none] at hbefore
  have hlast : lastMapped (first ++ [.map other paddr]) (pageNumber vaddr) =
      lastMapped first (pageNumber vaddr) := by
    rw [lastMapped, Search.last_some_concat, PmmOp.mapped, if_neg hpage, Option.none_or, lastMapped]
  rw [hfind, hbefore, hlast]

/-! ## An allocator that counts upwards -/

/-- The address of page `n`. -/
def pageAt (n : Nat) : BitVec 64 :=
  BitVec.ofNat 64 (4096 * n)

/-- The address of a page as a product. -/
theorem page_at_to_nat {n : Nat} (hn : n < 2 ^ 52) : (pageAt n).toNat = 4096 * n := by
  rw [pageAt, BitVec.toNat_ofNat]
  omega

section Counting

/-- The `k` frames requested so far are the pages from `first` on, and the allocator is ready to
answer with the next one. -/
structure Handed (Ready : Nat → σ → Prop) (first k : Nat) (s : PmmState σ) : Prop where
  ready : Ready (first + k) s.ppa
  frames : s.frames = (List.range' first k).map pageAt

variable {Ready : Nat → σ → Prop} {limit first k : Nat}

/-- One level hands out at most one page more. -/
theorem handed_descend
    (hrequest : ∀ n ppa, n < limit → Ready n ppa →
      (request ppa).1 = pageAt n ∧ Ready (n + 1) (request ppa).2)
    (h : Handed Ready first k s) (hlimit : first + k < limit) (table index : BitVec 64) :
    ∃ more ≤ 1, Handed Ready first (k + more) (pmmDescend request s table index).2 := by
  obtain ⟨-, hdescend⟩ | ⟨-, frame, ppa, linked, hanswer, -, hdescend⟩ :=
    pmm_descend_cases request s table index
  · exact ⟨0, Nat.zero_le 1, by rw [hdescend]; exact h⟩
  · obtain ⟨hpage, hready⟩ := hrequest _ _ hlimit h.ready
    rw [hanswer] at hpage hready
    have hframes : (pmmDescend request s table index).2.frames = s.frames ++ [frame] := by
      rw [hdescend]
      simp [PmmState.frames, PmmEvent.answer]
    refine ⟨1, Nat.le_refl 1, ?_, ?_⟩
    · rw [hdescend]
      exact hready
    · rw [hframes, h.frames, List.range'_concat, List.map_append, List.map_singleton,
        Nat.one_mul, ← hpage]

/-- A call hands out at most three pages more. -/
theorem handed_map
    (hrequest : ∀ n ppa, n < limit → Ready n ppa →
      (request ppa).1 = pageAt n ∧ Ready (n + 1) (request ppa).2)
    (h : Handed Ready first k s) (hlimit : first + k + 2 < limit) (vaddr paddr : BitVec 64) :
    ∃ more ≤ 3, Handed Ready first (k + more) (pmmMapMemory request s vaddr paddr) := by
  obtain ⟨n1, hle1, hpdp⟩ :=
    handed_descend hrequest h (by omega) s.pml4 (pmmIndex vaddr 39)
  obtain ⟨n2, hle2, hpd⟩ :=
    handed_descend hrequest hpdp (by omega) (pmmPdp request s vaddr).1 (pmmIndex vaddr 30)
  obtain ⟨n3, hle3, hpt⟩ :=
    handed_descend hrequest hpd (by omega) (pmmPd request s vaddr).1 (pmmIndex vaddr 21)
  refine ⟨n1 + n2 + n3, by omega, ?_⟩
  rw [← Nat.add_assoc, ← Nat.add_assoc]
  exact ⟨hpt.ready, by rw [map_eq_set_leaf, frames_set_leaf]; exact hpt.frames⟩

/-- Pages that come after the root table are fresh. -/
theorem handed_fresh (h : Handed Ready first k s) (root : Nat) (hroot : root < first)
    (hlimit : first + k < 2 ^ 40) : FreshFrames (pageAt root) s.frames := by
  -- the frames are consecutive pages that begin past the root table
  have hmem : ∀ frame ∈ s.frames, ∃ n, root < n ∧ n < 2 ^ 40 ∧ frame.toNat = 4096 * n := by
    intro frame hframe
    rw [h.frames] at hframe
    obtain ⟨n, hn, rfl⟩ := List.mem_map.mp hframe
    obtain ⟨hlow, hhigh⟩ := List.mem_range'_1.mp hn
    exact ⟨n, by omega, by omega, page_at_to_nat (by omega)⟩
  constructor
  case nodup =>
    rw [h.frames]
    refine List.Nodup.map_on ?_ List.nodup_range'
    intro n hn m hm hsame
    have hlt := (List.mem_range'_1.mp hn).2
    have hlt' := (List.mem_range'_1.mp hm).2
    have heq := congrArg BitVec.toNat hsame
    rw [page_at_to_nat (by omega), page_at_to_nat (by omega)] at heq
    omega
  case ne_zero =>
    intro frame hframe hsame
    obtain ⟨n, hlow, -, hn⟩ := hmem frame hframe
    have hzero : frame.toNat = 0 := congrArg BitVec.toNat hsame
    omega
  case ne_pml4 =>
    intro frame hframe hsame
    obtain ⟨n, hlow, -, hn⟩ := hmem frame hframe
    have hpage := congrArg BitVec.toNat hsame
    rw [page_at_to_nat (by omega)] at hpage
    omega
  case aligned =>
    intro frame hframe
    obtain ⟨n, -, -, hn⟩ := hmem frame hframe
    unfold PageAligned
    omega
  case small =>
    intro frame hframe
    obtain ⟨n, -, hlt, hn⟩ := hmem frame hframe
    omega

/-- The calls of a run that has pages enough are answered with fresh frames. -/
theorem handed_meets
    (hrequest : ∀ n ppa, n < limit → Ready n ppa →
      (request ppa).1 = pageAt n ∧ Ready (n + 1) (request ppa).2)
    (h : Handed Ready first k s) {root : Nat} (hpml4 : s.pml4 = pageAt root) (hroot : root < first)
    (calls : List (BitVec 64 × BitVec 64)) (hlimit : first + k + 3 * calls.length < limit)
    (hpages : limit ≤ 2 ^ 40) :
    Runs.Meets (pmmStep request) (PmmAdmits request) s
      (calls.map fun call => .map call.1 call.2) := by
  induction calls generalizing s k with
  | nil => trivial
  | cons call calls ih =>
      rw [List.length_cons] at hlimit
      obtain ⟨more, hmore, hnext⟩ := handed_map hrequest h (by omega) call.1 call.2
      have hkept : (pmmMapMemory request s call.1 call.2).pml4 = pageAt root :=
        (pml4_map request s call.1 call.2).trans hpml4
      refine ⟨?_, ih hnext hkept (by omega)⟩
      rw [PmmAdmits, hpml4]
      exact handed_fresh hnext root hroot (by omega)

end Counting

/-- Answer with page `n` and count on. -/
def bumpRequest (n : Nat) : BitVec 64 × Nat :=
  (pageAt n, n + 1)

/-- The entries of a zeroed memory. -/
theorem table_entry_zeroed (table index : BitVec 64) : tableEntry (fun _ => 0) table index = 0 := by
  apply BitVec.eq_of_getLsbD_eq
  intro i hi
  rw [tableEntry, ByteMemory.get_lsb_read]
  simp

/-- Calls answered by the pages from 2 on, with the root table in page 1. -/
theorem bump_meets (calls : List (BitVec 64 × BitVec 64)) (hlen : calls.length < 2 ^ 30) :
    Runs.Meets (pmmStep bumpRequest) (PmmAdmits bumpRequest)
      (pmmInitPml4 (pmmBoot (fun _ => 0) 2) 0x1000)
      (calls.map fun call => .map call.1 call.2) := by
  have hrequest : ∀ n ppa : Nat, n < 2 ^ 40 → ppa = n →
      (bumpRequest ppa).1 = pageAt n ∧ (bumpRequest ppa).2 = n + 1 := by
    rintro n ppa - rfl
    exact ⟨rfl, rfl⟩
  have hstart : Handed (fun n ppa => ppa = n) 2 0 (pmmInitPml4 (pmmBoot (fun _ => 0) 2) 0x1000) :=
    ⟨rfl, rfl⟩
  have hroot : (pmmInitPml4 (pmmBoot (fun _ => 0) 2) 0x1000).pml4 = pageAt 1 := rfl
  exact handed_meets hrequest hstart hroot (by decide) calls (by omega) (Nat.le_refl _)

/-- Two neighbouring pages mapped from a zeroed memory. -/
theorem find_paddr_two_pages :
    pmmFindPaddr (pmmReach bumpRequest (fun _ => 0) 2 0x1000
      [.map 0x600000 0x80000, .map 0x601000 0x81000]) 0x600123 = 0x80000 := by
  have hadmits := bump_meets [(0x600000, 0x80000), (0x601000, 0x81000)] (by decide)
  exact (find_paddr_refines_page_map bumpRequest (by decide)
    (fun index _ => table_entry_zeroed 0x1000 index) hadmits 0x600123).1.trans (by decide)

end SiStultum
