import Mathlib.Algebra.Ring.Nat
import Mathlib.Data.List.Basic

/-!
# Host — guest memory as QEMU maps it

`cpu_physical_memory_map` of `exec.c`: how a device model gets a pointer to a range of guest
memory. A range of writable RAM is mapped in place, as far as it lies in one block of
`ram_list`. Where the first page is anything else (MMIO, ROM), QEMU has one bounce buffer of a
page for all its devices: as long as nobody has it, the range is mapped to it, up to the end of
the page.

* `cpuPhysicalMemoryMap_maps` — what a range is that could be mapped as a whole.
-/

namespace VirtioCrypto.Host

def TARGET_PAGE_SIZE : Nat := 4096

/-- An address as wide as `target_phys_addr_t`. -/
def physAddr (n : Nat) : Nat := n % 2 ^ 64

/-- What `phys_page_find` and `ram_list` say: the address in `ram_list` of each page of writable
RAM (by page number), and offset and length of each block. -/
structure PhysMap where
  ramAddr : Nat → Option Nat
  blocks : List (Nat × Nat)

/-- What an `iov_base` points to. -/
inductive HostBuf
  | ram (raddr : Nat)
  | bounce
deriving DecidableEq, Repr

/-- How far the loop of `cpu_physical_memory_map` comes before a page that is not RAM (`todo`);
every turn takes at least one byte, so `len` turns are enough. -/
def ramTodo (pm : PhysMap) : Nat → Nat → Nat → Nat
  | 0, _, _ => 0
  | fuel + 1, addr, len =>
    if len = 0 then 0 else
    match pm.ramAddr (addr / TARGET_PAGE_SIZE) with
    | none => 0
    | some _ =>
      let l := min (TARGET_PAGE_SIZE - addr % TARGET_PAGE_SIZE) len
      l + ramTodo pm fuel (physAddr (addr + l)) (len - l)

/-- `qemu_ram_ptr_length`: a pointer and how far it is good. An address in no block is an
`abort()`, which ends QEMU as its caller does over a NULL. -/
def qemuRamPtrLength (pm : PhysMap) (raddr size : Nat) : Option (HostBuf × Nat) :=
  if size = 0 then none
  else
    (pm.blocks.find? fun block => block.1 ≤ raddr && raddr < block.1 + block.2).map fun block =>
      (.ram raddr, min size (block.1 + block.2 - raddr))

/-- `cpu_physical_memory_map`; `bounced` says whether the bounce buffer is taken. -/
def cpuPhysicalMemoryMap (pm : PhysMap) (bounced : Bool) (addr len : Nat) :
    Option (HostBuf × Nat) :=
  if len = 0 then none
  else
    let off := physAddr addr % TARGET_PAGE_SIZE
    match pm.ramAddr (physAddr addr / TARGET_PAGE_SIZE) with
    | none => if bounced then none else some (.bounce, min (TARGET_PAGE_SIZE - off) len)
    | some page => qemuRamPtrLength pm (page + off) (ramTodo pm len (physAddr addr) len)

-- ---------------------------------------------------------------------------
-- What a mapping says of the memory behind it
-- ---------------------------------------------------------------------------

variable {pm : PhysMap} {bounced : Bool} {addr len : Nat}

/-- The `len` bytes from `addr` are writable RAM. -/
def PhysMap.Ram (pm : PhysMap) (addr len : Nat) : Prop :=
  ∀ i < len, (pm.ramAddr (physAddr (addr + i) / TARGET_PAGE_SIZE)).isSome

theorem physAddr_lt (n : Nat) : physAddr n < 2 ^ 64 := Nat.mod_lt _ (by decide)

theorem physAddr_add (n i : Nat) : physAddr (physAddr n + i) = physAddr (n + i) := Nat.mod_add_mod _ _ _

/-- The bytes of one page are RAM together. -/
theorem ram_of_page (hAddr : addr < 2 ^ 64) (h : (pm.ramAddr (addr / TARGET_PAGE_SIZE)).isSome) :
    pm.Ram addr (TARGET_PAGE_SIZE - addr % TARGET_PAGE_SIZE) := by
  intro i hi
  have hSame : physAddr (addr + i) / TARGET_PAGE_SIZE = addr / TARGET_PAGE_SIZE := by
    unfold physAddr TARGET_PAGE_SIZE at *
    omega
  rw [hSame]
  exact h

/-- One range of RAM after another. -/
theorem PhysMap.Ram.append {l k : Nat} (h : pm.Ram addr l) (h' : pm.Ram (physAddr (addr + l)) k) :
    pm.Ram addr (l + k) := by
  intro i hi
  rcases Nat.lt_or_ge i l with hLt | hGe
  · exact h i hLt
  · have hHere := h' (i - l) (by omega)
    rwa [physAddr_add, show addr + l + (i - l) = addr + i by omega] at hHere

theorem ramTodo_le (pm : PhysMap) (fuel addr len : Nat) : ramTodo pm fuel addr len ≤ len := by
  induction fuel generalizing addr len with
  | zero => exact Nat.zero_le _
  | succ fuel ih =>
    unfold ramTodo
    split
    · exact Nat.zero_le _
    · split
      · exact Nat.zero_le _
      · have hRest := ih (physAddr (addr + min (TARGET_PAGE_SIZE - addr % TARGET_PAGE_SIZE) len))
          (len - min (TARGET_PAGE_SIZE - addr % TARGET_PAGE_SIZE) len)
        dsimp only
        omega

/-- All the loop went over is RAM. -/
theorem ramTodo_ram (pm : PhysMap) (fuel : Nat) (hAddr : addr < 2 ^ 64) (len : Nat) :
    pm.Ram addr (ramTodo pm fuel addr len) := by
  induction fuel generalizing addr len with
  | zero => exact fun i hi => absurd hi (Nat.not_lt_zero i)
  | succ fuel ih =>
    unfold ramTodo
    split
    · exact fun i hi => absurd hi (Nat.not_lt_zero i)
    · split
      · exact fun i hi => absurd hi (Nat.not_lt_zero i)
      · rename_i page hPage
        have hHere : pm.Ram addr _ := ram_of_page hAddr (by rw [hPage]; rfl)
        have hPart : pm.Ram addr (min (TARGET_PAGE_SIZE - addr % TARGET_PAGE_SIZE) len) :=
          fun i hi => hHere i (by omega)
        exact hPart.append (ih (physAddr_lt _) _)

/-- What stands behind a mapping of a range: RAM throughout, with as many bytes from the pointer
on in one block, or a part of one page that is not RAM. -/
def PhysMap.Maps (pm : PhysMap) (addr len : Nat) : HostBuf → Prop
  | .ram raddr => pm.Ram addr len ∧
      ∃ block ∈ pm.blocks, block.1 ≤ raddr ∧ raddr + len ≤ block.1 + block.2
  | .bounce => pm.ramAddr (physAddr addr / TARGET_PAGE_SIZE) = none ∧
      physAddr addr % TARGET_PAGE_SIZE + len ≤ TARGET_PAGE_SIZE

/-- A range that is mapped as a whole is not empty, and is one or the other; the bounce buffer
only comes into it when nobody has it. -/
theorem cpuPhysicalMemoryMap_maps {base : HostBuf}
    (h : cpuPhysicalMemoryMap pm bounced addr len = some (base, len)) :
    0 < len ∧ pm.Maps addr len base ∧ (base = .bounce → bounced = false) := by
  unfold cpuPhysicalMemoryMap at h
  split at h
  · cases h
  · rename_i hSome
    dsimp only at h
    have hOff : physAddr addr % TARGET_PAGE_SIZE < TARGET_PAGE_SIZE := Nat.mod_lt _ (by decide)
    split at h
    · rename_i hPage
      split at h
      · cases h
      · rename_i hFree
        rw [Option.some.injEq, Prod.mk.injEq] at h
        obtain ⟨rfl, hLen⟩ := h
        exact ⟨by omega, ⟨hPage, by omega⟩, fun _ => by simpa using hFree⟩
    · rename_i page hPage
      unfold qemuRamPtrLength at h
      split at h
      · cases h
      · obtain ⟨block, hFind, hEq⟩ := Option.map_eq_some_iff.mp h
        rw [Prod.mk.injEq] at hEq
        obtain ⟨rfl, hLen⟩ := hEq
        have hIn := List.find?_some hFind
        simp only [Bool.and_eq_true, decide_eq_true_eq] at hIn
        have hLe := ramTodo_le pm len (physAddr addr) len
        have hTodo : ramTodo pm len (physAddr addr) len = len := by omega
        have hRam := ramTodo_ram pm len (physAddr_lt addr) len
        rw [hTodo] at hRam
        refine ⟨by omega, ⟨fun i hi => ?_, block, List.mem_of_find?_eq_some hFind, hIn.1, by omega⟩,
          nofun⟩
        rw [← physAddr_add]
        exact hRam i hi

end VirtioCrypto.Host
