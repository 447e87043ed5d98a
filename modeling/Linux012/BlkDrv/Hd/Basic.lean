import Mathlib.Data.UInt
import Mathlib.Tactic
import Linux012.Lib.Runs

/-! # The hard disk driver

`kernel/blk_drv/hd.c` with `end_request` of `blk.h`. Progress is kept in the request itself, and the
next handler in `do_hd`. A handler runs to its end before the next event. A panic, a division by
zero and a write through the missing `CURRENT` end the run.
-/

namespace Linux012.Hd

open Function

def MAX_ERRORS : ℕ := 7

def BUSY_STAT : UInt8 := 0x80
def READY_STAT : UInt8 := 0x40
def WRERR_STAT : UInt8 := 0x20
def SEEK_STAT : UInt8 := 0x10
def ERR_STAT : UInt8 := 0x01

/-- The part of `struct hd_i_struct` that the commands depend on. -/
structure HdInfo where
  head : UInt8
  sect : UInt8
  cyl : UInt16

/-- `struct hd_struct` -/
structure HdStruct where
  startSect : UInt32
  nrSects : UInt32

/-- What `sys_setup` has found; `low` is what `CURRENT->errors` reads when there is no `CURRENT`. -/
structure Config where
  hdInfo : ℕ → HdInfo
  hd : ℕ → HdStruct
  nrHd : ℕ
  low : ℕ

inductive Cmd
  | READ
  | WRITE
  deriving DecidableEq

/-- `struct request`; `minor` is `MINOR(dev)`. -/
structure Request where
  minor : UInt8
  cmd : Cmd
  errors : ℕ
  sector : UInt32
  nrSectors : ℕ
  buffer : ℕ

/-- `DEVICE_NR` -/
def Request.drive (r : Request) : ℕ := r.minor.toNat / 5

/-- The contents of a sector -/
abbrev Sector := Fin 512 → UInt8

/-- The memory and the sectors of each drive. -/
structure World where
  mem : ℕ → UInt8
  disk : ℕ → ℕ → Sector

def load (mem : ℕ → UInt8) (addr : ℕ) : Sector := fun i => mem (addr + i)

def store (mem : ℕ → UInt8) (addr : ℕ) (data : Sector) : ℕ → UInt8 := fun a =>
  if h : addr ≤ a ∧ a < addr + 512 then data ⟨a - addr, by omega⟩ else mem a

def setSector (disk : ℕ → ℕ → Sector) (drive lba : ℕ) (data : Sector) : ℕ → ℕ → Sector :=
  update disk drive (update (disk drive) lba data)

/-! ## The controller -/

inductive Win
  | RESTORE
  | READ
  | WRITE
  | SPECIFY
  deriving DecidableEq

/-- The task file: what the last command was given, how many of its sectors have been moved, and
the data that it has got for the next, with the address they come from. -/
structure Ctl where
  cmd : Win
  drive : ℕ
  nsect : UInt8
  sect : UInt8
  head : UInt8
  cyl : UInt16
  moved : ℕ
  data : Option (ℕ × Sector)

/-- The number of sectors that sixteen bits of cylinders can name. -/
def limit (info : HdInfo) : ℕ := 65536 * info.head.toNat * info.sect.toNat

/-- The sector the controller is at. -/
def Ctl.lba (c : Config) (t : Ctl) : ℕ :=
  let info := c.hdInfo t.drive
  ((t.cyl.toNat * info.head.toNat + t.head.toNat) * info.sect.toNat + (t.sect.toNat - 1) + t.moved) %
    limit info

/-! ## The driver -/

inductive Handler
  | resetHd
  | readIntr
  | writeIntr
  | recalIntr
  deriving DecidableEq

/-- A sector moved: the drive, the sector and the address. -/
structure Move where
  drive : ℕ
  lba : ℕ
  addr : ℕ
  deriving DecidableEq

/-- A request completed by `end_request(1)`, the sectors moved for it, and the memory and the disks
when it became `CURRENT` and at its end. -/
structure Done where
  req : Request
  moved : List Move
  before : World
  after : World

/-- `current` is `CURRENT` with the requests behind it, and `drq` what the next polls for `DRQ_STAT`
find. Not in the source: `began` is `CURRENT` as it was at first, with the memory and the disks at that
time, `moved` the sectors moved for it, `done` what has been completed. -/
structure Drv where
  current : List Request
  doHd : Option Handler
  hdTimeout : ℕ
  reset : Bool
  recalibrate : Bool
  i : ℤ
  ctl : Ctl
  drq : List Bool
  world : World
  began : Option (Request × World)
  moved : List Move
  done : List Done

/-- `win_result` fails. -/
def winResult (status : UInt8) : Bool :=
  (status &&& (BUSY_STAT ||| READY_STAT ||| WRERR_STAT ||| SEEK_STAT ||| ERR_STAT)) !=
    (READY_STAT ||| SEEK_STAT)

namespace Drv

/-- The first request becomes `CURRENT`. -/
def begin (s : Drv) : Drv :=
  { s with began := s.current.head?.map fun r => (r, s.world), moved := [] }

def finish (uptodate : Bool) (s : Drv) : List Done :=
  match uptodate, s.began with
  | true, some (r, w) => ⟨r, s.moved, w, s.world⟩ :: s.done
  | _, _ => s.done

/-- `end_request` -/
def endRequest (uptodate : Bool) (s : Drv) : Drv :=
  begin { s with current := s.current.tail, done := s.finish uptodate }

/-- `port_write(HD_DATA, CURRENT->buffer, 256)` -/
def portWrite (r : Request) (s : Drv) : Drv :=
  { s with ctl.data := some (r.buffer, load s.world.mem r.buffer) }

/-- `port_read(HD_DATA, CURRENT->buffer, 256)`; there is nothing to read but for a read command. -/
def portRead (c : Config) (r : Request) (s : Drv) : Drv :=
  if s.ctl.cmd = .READ then
    { s with
      world.mem := store s.world.mem r.buffer (s.world.disk s.ctl.drive (s.ctl.lba c))
      moved := s.moved ++ [⟨s.ctl.drive, s.ctl.lba c, r.buffer⟩]
      ctl.moved := s.ctl.moved + 1 }
  else { s with world.mem := store s.world.mem r.buffer fun _ => 0xff }

/-- The controller has written its sector. -/
def written (c : Config) (s : Drv) : Drv :=
  match s.ctl.cmd, s.ctl.data with
  | .WRITE, some (addr, data) =>
    { s with
      world.disk := setSector s.world.disk s.ctl.drive (s.ctl.lba c) data
      moved := s.moved ++ [⟨s.ctl.drive, s.ctl.lba c, addr⟩]
      ctl := { s.ctl with moved := s.ctl.moved + 1, data := none } }
  | _, _ => s

/-- A write under way may leave anything in its sector. -/
def spoil (c : Config) (left : Sector) (s : Drv) : Drv :=
  match s.ctl.cmd, s.ctl.data with
  | .WRITE, some _ =>
    { s with world.disk := setSector s.world.disk s.ctl.drive (s.ctl.lba c) left }
  | _, _ => s

end Drv

def hdOut (drive nsect sect head cyl : UInt32) (cmd : Win) (intr : Handler) (s : Drv) : Option Drv :=
  if drive > 1 ∨ head > 15 then none
  else some { s with
    doHd := some intr
    hdTimeout := 200
    ctl := ⟨cmd, drive.toNat, nsect.toUInt8, sect.toUInt8, head.toUInt8, cyl.toUInt16, 0, none⟩ }

def badRwIntr (c : Config) (s : Drv) : Option Drv :=
  match s.current with
  | [] => none
  | r :: rest =>
    let s := { s with current := { r with errors := r.errors + 1 } :: rest }
    let s := if r.errors + 1 ≥ MAX_ERRORS then s.endRequest false else s
    let errors := (s.current.head?.map Request.errors).getD c.low
    some (if errors > MAX_ERRORS / 2 then { s with reset := true } else s)

/-- The beginning of `reset_hd`, up to `i++`. -/
def resetHdResult (c : Config) (status : UInt8) (s : Drv) : Option Drv :=
  if s.reset then some { s with reset := false, i := -1 }
  else if winResult status then
    (badRwIntr c s).map fun s => if s.reset then { s with reset := false, i := -1 } else s
  else some s

/-- `reset_hd`; `request` is `do_hd_request`. -/
def resetHd (c : Config) (request : Drv → Option Drv) (status : UInt8) (s : Drv) : Option Drv := do
  let s ← resetHdResult c status s
  let s := { s with i := s.i + 1 }
  if s.i < (c.nrHd : ℤ) then
    let info := c.hdInfo s.i.toNat
    hdOut (.ofNat s.i.toNat) info.sect.toUInt32 info.sect.toUInt32 (info.head.toUInt32 - 1)
      info.cyl.toUInt32 .SPECIFY .resetHd s
  else request s

/-- `do_hd_request`, with a bound on the jumps to `repeat`. -/
def requestLoop (c : Config) : ℕ → Drv → Option Drv
  | 0, _ => none
  | k + 1, s =>
    match s.current with
    | [] => some { s with doHd := none, hdTimeout := 0 }
    | r :: _ =>
      if r.minor.toNat ≥ 5 * c.nrHd ∨ r.sector + 2 > (c.hd r.minor.toNat).nrSects then
        requestLoop c k (s.endRequest false)
      else
        let dev := UInt32.ofNat r.drive
        let info := c.hdInfo r.drive
        let block := r.sector + (c.hd r.minor.toNat).startSect
        if info.sect = 0 ∨ info.head = 0 then none
        else
          let sec := block % info.sect.toUInt32 + 1
          let head := block / info.sect.toUInt32 % info.head.toUInt32
          let cyl := block / info.sect.toUInt32 / info.head.toUInt32
          let nsect := UInt32.ofNat r.nrSectors
          if s.reset then resetHd c (requestLoop c k) 0 { s with recalibrate := true }
          else if s.recalibrate then
            hdOut dev info.sect.toUInt32 0 0 0 .RESTORE .recalIntr { s with recalibrate := false }
          else
            match r.cmd with
            | .WRITE => do
              let s ← hdOut dev nsect sec head cyl .WRITE .writeIntr s
              match s.drq with
              | false :: drq => do
                let s ← badRwIntr c { s with drq := drq }
                requestLoop c k s
              | drq => some ({ s with drq := drq.tail }.portWrite r)
            | .READ => hdOut dev nsect sec head cyl .READ .readIntr s

/-- Each jump to `repeat` ends a request or follows a poll that has found nothing. -/
def doHdRequest (c : Config) (s : Drv) : Option Drv :=
  requestLoop c (s.current.length + s.drq.length + 1) s

/-- What bounds the jumps to `repeat`. -/
def Drv.jumps (s : Drv) : ℕ := s.current.length + s.drq.length

theorem badRwIntr_jumps {c : Config} {s s' : Drv} (hs : badRwIntr c s = some s') :
    s'.jumps ≤ s.jumps := by
  unfold badRwIntr at hs
  split at hs
  · cases hs
  · rename_i r rest hcur
    obtain rfl := Option.some.inj hs
    unfold Drv.jumps
    rw [hcur]
    split <;> split <;> simp [Drv.endRequest, Drv.begin]

/-- With `reset` set the first drive is told its geometry, and nothing else. -/
theorem resetHd_reset {c : Config} {s : Drv} (hreset : s.reset = true) (hnr : 0 < c.nrHd)
    (request request' : Drv → Option Drv) : resetHd c request 0 s = resetHd c request' 0 s := by
  have hres : resetHdResult c 0 s = some { s with reset := false, i := -1 } := by
    unfold resetHdResult
    rw [if_pos hreset]
  unfold resetHd
  rw [hres]
  dsimp only [Option.bind_eq_bind, Option.bind_some]
  have hlt : (-1 : ℤ) + 1 < (c.nrHd : ℤ) := by omega
  rw [if_pos hlt, if_pos hlt]

/-- The bound is never met. -/
theorem requestLoop_enough {c : Config} {s : Drv} {n m : ℕ} (hn : s.jumps < n) (hm : s.jumps < m) :
    requestLoop c n s = requestLoop c m s := by
  induction n generalizing s m with
  | zero => omega
  | succ n ih =>
    obtain ⟨m, rfl⟩ := Nat.exists_eq_succ_of_ne_zero (by omega : m ≠ 0)
    unfold requestLoop
    split
    · rfl
    · rename_i r rest hcur
      split
      · have hlt : (s.endRequest false).jumps < s.jumps := by
          simp [Drv.jumps, Drv.endRequest, Drv.begin, hcur]
        exact ih (by omega) (by omega)
      · rename_i hvalid
        dsimp only
        split
        · rfl
        · split
          · rename_i hreset
            have hnr : 0 < c.nrHd := by omega
            apply resetHd_reset _ hnr
            exact hreset
          · split
            · rfl
            · split
              · refine Option.bind_congr fun s₁ h₁ => ?_
                unfold hdOut at h₁
                split at h₁
                · cases h₁
                · obtain rfl := Option.some.inj h₁
                  split
                  · rename_i drq hdrq
                    refine Option.bind_congr fun s₂ h₂ => ?_
                    have hle := badRwIntr_jumps h₂
                    have hlen : s.drq.length = drq.length + 1 := by
                      rw [show s.drq = false :: drq from hdrq, List.length_cons]
                    simp only [Drv.jumps] at hle hn hm
                    refine ih ?_ ?_ <;> (unfold Drv.jumps; omega)
                  · rfl
              · rfl

def readIntr (c : Config) (status : UInt8) (s : Drv) : Option Drv :=
  if winResult status then (badRwIntr c s).bind (doHdRequest c)
  else
    match s.current with
    | [] => none
    | r :: rest =>
      let s := s.portRead c r
      let s := { s with
        current := { r with
          errors := 0
          buffer := r.buffer + 512
          sector := r.sector + 1
          nrSectors := r.nrSectors - 1 } :: rest }
      if r.nrSectors - 1 ≠ 0 then some { s with doHd := some .readIntr, hdTimeout := 200 }
      else doHdRequest c (s.endRequest true)

def writeIntr (c : Config) (status : UInt8) (s : Drv) : Option Drv :=
  if winResult status then (badRwIntr c s).bind (doHdRequest c)
  else
    match s.current with
    | [] => none
    | r :: rest =>
      if r.nrSectors - 1 ≠ 0 then
        let r := { r with
          nrSectors := r.nrSectors - 1
          sector := r.sector + 1
          buffer := r.buffer + 512 }
        some ({ s with
          current := r :: rest
          doHd := some .writeIntr
          hdTimeout := 200 }.portWrite r)
      else
        doHdRequest c
          ({ s with current := { r with nrSectors := r.nrSectors - 1 } :: rest }.endRequest true)

def recalIntr (c : Config) (status : UInt8) (s : Drv) : Option Drv :=
  (if winResult status then badRwIntr c s else some s).bind (doHdRequest c)

def hdTimesOut (c : Config) (s : Drv) : Option Drv :=
  match s.current with
  | [] => some s
  | r :: rest =>
    let s := { s with current := { r with errors := r.errors + 1 } :: rest }
    let s := if r.errors + 1 ≥ MAX_ERRORS then s.endRequest false else s
    doHdRequest c { s with doHd := none, hdTimeout := 200, reset := true }

def unexpectedHdInterrupt (c : Config) (s : Drv) : Option Drv := doHdRequest c { s with reset := true }

/-! ## Runs -/

/-- `add_request` puts a request first when there is none, and else somewhere behind `CURRENT`. -/
inductive Event
  | add (r : Request) (place : ℕ)
  | interrupt (status : UInt8)
  | tick
  | spoil (left : Sector)

/-- An event, and what the polls during it find. -/
structure Act where
  event : Event
  drq : List Bool

/-- A request as `make_request` and `ll_rw_page` fill it. -/
def Request.Fresh (r : Request) : Prop := r.errors = 0 ∧ 0 < r.nrSectors

instance (r : Request) : Decidable r.Fresh := inferInstanceAs (Decidable (_ ∧ _))

/-- `hd_interrupt` -/
def hdInterrupt (c : Config) (status : UInt8) (s : Drv) : Option Drv :=
  let intr := s.doHd
  let s := { s with doHd := none, hdTimeout := 0 }
  let s := if winResult status then s else s.written c
  match intr with
  | none => unexpectedHdInterrupt c s
  | some .resetHd => resetHd c (doHdRequest c) status s
  | some .readIntr => readIntr c status s
  | some .writeIntr => writeIntr c status s
  | some .recalIntr => recalIntr c status s

/-- `do_timer` -/
def doTimer (c : Config) (s : Drv) : Option Drv :=
  if s.hdTimeout = 0 then some s
  else
    let s := { s with hdTimeout := s.hdTimeout - 1 }
    if s.hdTimeout = 0 then hdTimesOut c s else some s

def step (c : Config) (a : Act) (s : Drv) : Option Drv :=
  let s := { s with drq := a.drq }
  match a.event with
  | .add r place =>
    if r.Fresh then
      match s.current with
      | [] => doHdRequest c { s with current := [r] }.begin
      | r₀ :: rest => some { s with current := r₀ :: rest.take place ++ r :: rest.drop place }
    else none
  | .interrupt status => hdInterrupt c status s
  | .tick => doTimer c s
  | .spoil left => some (s.spoil c left)

/-- No request, no handler. -/
def boot (ctl : Ctl) (world : World) : Drv where
  current := []
  doHd := none
  hdTimeout := 0
  reset := false
  recalibrate := false
  i := 0
  ctl := ctl
  drq := []
  world := world
  began := none
  moved := []
  done := []

end Linux012.Hd
