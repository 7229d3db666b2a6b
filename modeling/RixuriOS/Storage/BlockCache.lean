import Mathlib

/-!
# The block cache

`storage/block_cache.c`: 64 write-back entries in front of all block devices.
Calls come from one thread, so every call is one step on `State`. How each
device request ends is taken from a sequence of fates; a failing write may have
reached the device or not. The contents of a sector stand for the first
`sector_size` bytes of a buffer, the only ones the cache copies.
-/

namespace RixuriOS.Storage

abbrev cacheEntries : Nat := 64

def cacheSectorBytes : Nat := 4096

abbrev Sector := List UInt8

structure DeviceInfo where
  sectorSize : Nat
  /-- `submit` is not null. -/
  submits : Bool

structure CacheEntry (Dev : Type*) where
  device : Option Dev
  sector : Nat
  valid : Bool
  dirty : Bool
  writeback : Bool
  data : Sector
  age : Nat

abbrev CacheSlot := Fin cacheEntries

/-- The cache, the contents of the devices and the number of requests that have
been submitted to them. -/
structure CacheState (Dev : Type*) where
  cache : CacheSlot → CacheEntry Dev
  clockTick : Nat
  disk : Dev → Nat → Sector
  submitted : Nat

inductive Fate where
  | done
  | failed (landed : Bool)

variable {Dev : Type*}

namespace CacheEntry

def invalidate (e : CacheEntry Dev) : CacheEntry Dev :=
  { e with valid := false, dirty := false, writeback := false, device := none, sector := 0, age := 0 }

end CacheEntry

/-- `block_cache_init`, over whatever the entries held. -/
def blockCacheInit (cache : CacheSlot → CacheEntry Dev) (disk : Dev → Nat → Sector) :
    CacheState Dev where
  cache i := { cache i with device := none, valid := false, dirty := false, writeback := false, age := 0 }
  clockTick := 0
  disk := disk
  submitted := 0

def victimFrom (cache : CacheSlot → CacheEntry Dev) :
    List CacheSlot → Option CacheSlot → Option CacheSlot
  | [], v => v
  | i :: rest, v =>
    if (cache i).writeback then victimFrom cache rest v
    else if !(cache i).valid then some i
    else match v with
      | none => victimFrom cache rest (some i)
      | some j => victimFrom cache rest (some (if (cache i).age < (cache j).age then i else j))

/-- `victim`: the first free entry, or the oldest one, among those that are not
being written back. -/
def victim (cache : CacheSlot → CacheEntry Dev) : Option CacheSlot :=
  victimFrom cache (List.finRange cacheEntries) none

namespace CacheState

def setEntry (s : CacheState Dev) (i : CacheSlot) (e : CacheEntry Dev) : CacheState Dev :=
  { s with cache := Function.update s.cache i e }

/-- `++clock_tick`, stored as the age of an entry. -/
def touch (s : CacheState Dev) (i : CacheSlot) : CacheState Dev :=
  let tick := (s.clockTick + 1) % 2 ^ 64
  { s.setEntry i { s.cache i with age := tick } with clockTick := tick }

end CacheState

section Operations

variable [DecidableEq Dev] (info : Dev → DeviceInfo) (fates : Nat → Fate)

def sizeFits (d : Dev) : Bool :=
  (info d).sectorSize ≠ 0 ∧ (info d).sectorSize ≤ cacheSectorBytes

def ioRead (s : CacheState Dev) (d : Dev) (sector : Nat) : Option Sector × CacheState Dev :=
  if !(info d).submits || !sizeFits info d then (none, s)
  else
    let s' := { s with submitted := s.submitted + 1 }
    match fates s.submitted with
    | .done => (some (s.disk d sector), s')
    | .failed _ => (none, s')

def ioWrite (s : CacheState Dev) (d : Dev) (sector : Nat) (data : Sector) :
    Bool × CacheState Dev :=
  if !(info d).submits || !sizeFits info d then (false, s)
  else
    let s' := { s with submitted := s.submitted + 1 }
    let written := { s' with
      disk := Function.update s.disk d (Function.update (s.disk d) sector data) }
    match fates s.submitted with
    | .done => (true, written)
    | .failed landed => (false, if landed then written else s')

def find (cache : CacheSlot → CacheEntry Dev) (d : Dev) (sector : Nat) : Option CacheSlot :=
  (List.finRange cacheEntries).find? fun i =>
    (cache i).valid ∧ (cache i).device = some d ∧ (cache i).sector = sector

/-- The end of `evict_one` when the victim could not be written: the entry stays
as it is and is no longer being written back. -/
def keepFailed (s : CacheState Dev) (d : Dev) (sector age : Nat) : CacheState Dev :=
  match find s.cache d sector with
  | none => s
  | some i =>
    if (s.cache i).age = age then s.setEntry i { s.cache i with writeback := false } else s

/-- The end of `evict_one` when the victim was written: it is given up unless it
changed meanwhile. -/
def reclaim (s : CacheState Dev) (d : Dev) (sector age : Nat) : CacheState Dev :=
  match find s.cache d sector with
  | none => s
  | some i =>
    if (s.cache i).age = age then s.setEntry i (s.cache i).invalidate
    else s.setEntry i { s.cache i with writeback := false }

/-- `evict_one`; true when a free entry is ready. -/
def evictOne (s : CacheState Dev) : Bool × CacheState Dev :=
  match victim s.cache with
  | none => (false, s)
  | some i =>
    let e := s.cache i
    if !e.valid || !e.dirty then (true, s.setEntry i e.invalidate)
    else match e.device with
      | none => (false, s)
      | some d =>
        if !sizeFits info d then (false, s)
        else
          let r := ioWrite info fates (s.setEntry i { e with writeback := true }) d e.sector e.data
          if !r.1 then (false, keepFailed r.2 d e.sector e.age)
          else
            let s := reclaim r.2 d e.sector e.age
            match victim s.cache with
            | none => (false, s)
            | some j => (!(s.cache j).valid, s)

/-- The retries of `evict_one` in a call. -/
def evictRetry : Nat → CacheState Dev → Bool × CacheState Dev
  | 0, s => (false, s)
  | n + 1, s =>
    let r := evictOne info fates s
    if r.1 then r else evictRetry n r.2

def fill (s : CacheState Dev) (i : CacheSlot) (d : Dev) (sector : Nat) (data : Sector)
    (dirty : Bool) : CacheState Dev :=
  CacheState.touch (s.setEntry i
    { s.cache i with
      data := data, device := some d, sector := sector, valid := true, dirty := dirty
      writeback := false }) i

def blockCacheRead (s : CacheState Dev) (d : Dev) (sector : Nat) :
    Option Sector × CacheState Dev :=
  if !sizeFits info d then (none, s)
  else match find s.cache d sector with
    | some i => (some (s.cache i).data, s.touch i)
    | none =>
      let r := evictRetry info fates 3 s
      if !r.1 then (none, r.2)
      else
        let q := ioRead info fates r.2 d sector
        let s := q.2
        match q.1 with
        | none => (none, s)
        | some fresh =>
          match find s.cache d sector with
          | some _ => (some fresh, s)
          | none =>
            match victim s.cache with
            | none => (some fresh, s)
            | some i =>
              if (s.cache i).valid then (some fresh, s)
              else (some fresh, fill s i d sector fresh false)

def blockCacheWrite (s : CacheState Dev) (d : Dev) (sector : Nat) (input : Sector) :
    Bool × CacheState Dev :=
  if !sizeFits info d then (false, s)
  else match find s.cache d sector with
    | some i =>
      (true, (s.setEntry i { s.cache i with data := input, dirty := true }).touch i)
    | none =>
      let r := evictRetry info fates 3 s
      let s := r.2
      if !r.1 then (false, s)
      else match victim s.cache with
        | none => ioWrite info fates s d sector input
        | some i =>
          if (s.cache i).valid then ioWrite info fates s d sector input
          else (true, fill s i d sector input true)

def nextDirty (s : CacheState Dev) (d : Dev) : Option CacheSlot :=
  (List.finRange cacheEntries).find? fun i =>
    (s.cache i).valid ∧ (s.cache i).device = some d ∧ (s.cache i).dirty ∧ !(s.cache i).writeback

/-- A round of `block_cache_flush` after the write: the entry is clean when it was
written and has not changed. -/
def settle (s : CacheState Dev) (d : Dev) (sector age : Nat) (written : Bool) : CacheState Dev :=
  match find s.cache d sector with
  | none => s
  | some i =>
    s.setEntry i { s.cache i with
      writeback := false
      dirty := if written ∧ (s.cache i).age = age then false else (s.cache i).dirty }

/-- The loop of `block_cache_flush`, `none` when it takes more than `n` rounds;
false when a write failed. -/
def flushLoop (d : Dev) : Nat → CacheState Dev → Option (Bool × CacheState Dev)
  | 0, _ => none
  | n + 1, s =>
    match nextDirty s d with
    | none => some (true, s)
    | some i =>
      let e := s.cache i
      let r := ioWrite info fates (s.setEntry i { e with writeback := true }) d e.sector e.data
      let s := settle r.2 d e.sector e.age r.1
      if r.1 then flushLoop d n s else some (false, s)

/-- `block_cache_flush`; true for a return value of 0. Every round cleans an entry,
so the loop ends within one round more than there are entries. -/
def blockCacheFlush (s : CacheState Dev) (d : Dev) : Option (Bool × CacheState Dev) :=
  if !(info d).submits then some (false, s)
  else (flushLoop info fates d (cacheEntries + 1) s).map fun r =>
    if !r.1 then (false, r.2)
    else
      let s' := { r.2 with submitted := r.2.submitted + 1 }
      match fates r.2.submitted with
      | .done => (true, s')
      | .failed _ => (false, s')

end Operations

end RixuriOS.Storage
