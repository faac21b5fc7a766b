import Tikv.LibBytes
/-!
# UtilMemory — the memory quota (`tikv_util::memory`)

A quota counts the bytes that are in use and refuses to go above its capacity.  What is freed below zero is put back, and
a call for more bytes than `MAX_MEMORY_ALLOC_SIZE` is refused or, when it frees, ignored.
-/
namespace Tikv
namespace Util

structure MemoryQuota where
  inUse : Int
  capacity : Nat
deriving DecidableEq, Repr

def maxMemoryAllocSize : Nat := 2 ^ 48

namespace MemoryQuota

/-- `alloc`; a call in a quota that is overdrawn fails at the second test. -/
def alloc (q : MemoryQuota) (bytes : Nat) : Option MemoryQuota :=
  if bytes > maxMemoryAllocSize then none
  else if (bytes : Int) > q.capacity - q.inUse then none
  else some { q with inUse := q.inUse + bytes }

/-- `free`; what falls below zero is put back, up to what was freed. -/
def free (q : MemoryQuota) (bytes : Nat) : MemoryQuota :=
  if bytes > maxMemoryAllocSize then q
  else
    let newInUse := q.inUse - bytes
    if newInUse < 0 then { q with inUse := newInUse + min (-newInUse) bytes } else { q with inUse := newInUse }

variable {q q' : MemoryQuota} {bytes : Nat}

theorem alloc_eq_some (h : q.alloc bytes = some q') :
    q' = { q with inUse := q.inUse + bytes } := by
  unfold alloc at h
  split at h
  · cases h
  split at h
  · cases h
  · cases h; rfl

theorem le_of_alloc (h : q.alloc bytes = some q') : bytes ≤ maxMemoryAllocSize := by
  unfold alloc at h
  split at h
  · cases h
  · omega

theorem free_of_le (hmax : bytes ≤ maxMemoryAllocSize) (hle : (bytes : Int) ≤ q.inUse) :
    q.free bytes = { q with inUse := q.inUse - bytes } := by
  unfold free
  rw [if_neg (not_lt.2 hmax)]
  rw [if_neg (by omega)]

theorem inUse_free_iff (hle : (bytes : Int) ≤ q.inUse) :
    (q.free bytes).inUse = q.inUse - bytes ↔ bytes ≤ maxMemoryAllocSize := by
  refine ⟨fun heq => ?_, fun hmax => by rw [free_of_le hmax hle]⟩
  by_contra hgt
  rw [free, if_pos (lt_of_not_ge hgt)] at heq
  omega

end MemoryQuota

end Util
end Tikv
