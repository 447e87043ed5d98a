import Linux012.Kernel.Math.Address
import Linux012.Kernel.Math.Arith

/-! # One instruction of the coprocessor

`do_emu`, with the loads and stores of `get_put.c`. Each `switch` gives what its case does, if there is one.
The variable `tmp` of `do_emu` is not initialised; its contents come with the call.
-/

namespace Linux012.Math

open Function

/-! ## Registers -/

/-- `__st` -/
def I387.index (i : BitVec 16) (c : I387) : Fin 8 :=
  ((i.setWidth 32 + c.swd.sshiftRight 11) &&& 7 : Long).setWidth 3 |>.toFin

def I387.st (i : BitVec 16) (c : I387) : TempReal := c.stSpace (c.index i)

def I387.setSt (i : BitVec 16) (t : TempReal) (c : I387) : I387 :=
  { c with stSpace := update c.stSpace (c.index i) t }

def fpopSwd (swd : Long) : Long := ((swd + 0x00000800) &&& 0x00003800) ||| (swd &&& 0xffffc7ff)

def fpushSwd (swd : Long) : Long := ((swd + 0x00003800) &&& 0x00003800) ||| (swd &&& 0xffffc7ff)

def I387.fpop (c : I387) : I387 := { c with swd := fpopSwd c.swd }

def I387.fpush (c : I387) : I387 := { c with swd := fpushSwd c.swd }

/-- `ROUNDING` -/
def I387.rounding (c : I387) : Rounding :=
  match (c.cwd.sshiftRight 10 &&& 3).toNat with
  | 0 => .nearest
  | 1 => .down
  | 2 => .up
  | _ => .zero

/-! ## The image in memory -/

/-- The bytes of a word -/
def byteOf (x : Long) (k : ℕ) : BitVec 8 := (x >>> (8 * k)).setWidth 8

/-- The ten bytes of a real -/
def TempReal.byte (t : TempReal) (k : ℕ) : BitVec 8 :=
  if k < 4 then byteOf t.a k else if k < 8 then byteOf t.b (k - 4) else byteOf (t.exponent.setWidth 32) (k - 8)

def TempReal.ofBytes (f : ℕ → BitVec 8) : TempReal where
  a := f 3 ++ f 2 ++ f 1 ++ f 0
  b := f 7 ++ f 6 ++ f 5 ++ f 4
  exponent := f 9 ++ f 8

/-- `((long *) & I387)[k]` -/
def I387.word (c : I387) : ℕ → Long
  | 0 => c.cwd
  | 1 => c.swd
  | 2 => c.twd
  | 3 => c.fip
  | 4 => c.fcs
  | 5 => c.foo
  | 6 => c.fos
  | k + 7 =>
    let byte (j : ℕ) : BitVec 8 := (c.stSpace (.ofNat 8 (j / 10))).byte (j % 10)
    byte (4 * k + 3) ++ byte (4 * k + 2) ++ byte (4 * k + 1) ++ byte (4 * k)

/-- The image with this word at `k` -/
def I387.setWord (c : I387) (k : ℕ) (x : Long) : I387 :=
  match k with
  | 0 => { c with cwd := x }
  | 1 => { c with swd := x }
  | 2 => { c with twd := x }
  | 3 => { c with fip := x }
  | 4 => { c with fcs := x }
  | 5 => { c with foo := x }
  | 6 => { c with fos := x }
  | k + 7 =>
    { c with
      stSpace := fun r => .ofBytes fun j =>
        let pos := r * 10 + j
        if pos / 4 = k then byteOf x (pos % 4) else (c.stSpace r).byte j }

/-! ## Steps -/

def putFsByte (addr : Long) (x : BitVec 8) : Emu Unit := fun s => .ok () { s with memory := update s.memory addr x }

def putFsWord (addr : Long) (x : BitVec 16) : Emu Unit := do
  putFsByte addr (x.setWidth 8)
  putFsByte (addr + 1) ((x >>> 8).setWidth 8)

def putFsLong (addr : Long) (x : Long) : Emu Unit := do
  putFsByte addr (byteOf x 0)
  putFsByte (addr + 1) (byteOf x 1)
  putFsByte (addr + 2) (byteOf x 2)
  putFsByte (addr + 3) (byteOf x 3)

def modifyI387 (f : I387 → I387) : Emu Unit := fun s => .ok () { s with i387 := f s.i387 }

def ST (i : BitVec 16) : Emu TempReal := fun s => .ok (s.i387.st i) s

/-- `real_to_real(&t,&ST(i))`, `ST(i) = t` -/
def setST (i : BitVec 16) (t : TempReal) : Emu Unit := modifyI387 (I387.setSt i t)

def fpop : Emu Unit := modifyI387 I387.fpop

def fpush : Emu Unit := modifyI387 I387.fpush

def rounding : Emu Rounding := fun s => .ok s.i387.rounding s

/-- A routine whose loops end -/
def ended {α : Type} : Option α → Emu α
  | some a => pure a
  | none => throw .loops

/-- A routine that sets bits of the status word -/
def withSwd {α : Type} (f : Long → α × Long) : Emu α := fun s =>
  .ok (f s.i387.swd).1 { s with i387 := { s.i387 with swd := (f s.i387.swd).2 } }

/-- `fadd(src1,src2,&tmp)` -/
def emuAdd (src1 src2 _tmp : TempReal) : Emu TempReal := ended (fadd src1 src2)

/-- `fmul(src1,src2,&tmp)`: what is not written stays. -/
def emuMul (src1 src2 tmp : TempReal) : Emu TempReal := do
  let result ← withSwd (fmul src1 src2)
  return result.getD tmp

/-- `fdiv(src1,src2,&tmp)` -/
def emuDiv (src1 src2 tmp : TempReal) : Emu TempReal := fun s =>
  match fdiv src1 src2 s.i387.swd with
  | none => .error .loops s
  | some (result, swd) => .ok (result.getD tmp) { s with i387 := { s.i387 with swd := swd } }

/-- `fcom(src1,src2)`, `fucom(src1,src2)` -/
def emuCom (src1 src2 : TempReal) : Emu Unit := fun s =>
  match fcom src1 src2 s.i387.swd with
  | none => .error .loops s
  | some swd => .ok () { s with i387 := { s.i387 with swd := swd } }

/-! ## `get_put.c` -/

def getShortReal (code : BitVec 16) : Emu TempReal := do
  let addr ← ea code
  let s ← get
  return shortToTemp (s.getFsLong addr)

def getLongReal (code : BitVec 16) : Emu TempReal := do
  let addr ← ea code
  let s ← get
  return longToTemp ⟨s.getFsLong addr, s.getFsLong (addr + 4)⟩

def getTempReal (code : BitVec 16) : Emu TempReal := do
  let addr ← ea code
  let s ← get
  return ⟨s.getFsLong addr, s.getFsLong (addr + 4), s.getFsWord (addr + 8)⟩

def emuGetShortInt (code : BitVec 16) : Emu TempReal := do
  let addr ← ea code
  let s ← get
  ended (getShortInt (s.getFsWord addr))

def emuGetLongInt (code : BitVec 16) : Emu TempReal := do
  let addr ← ea code
  let s ← get
  ended (getLongInt (s.getFsLong addr))

def emuGetLonglongInt (code : BitVec 16) : Emu TempReal := do
  let addr ← ea code
  let s ← get
  ended (getLonglongInt (s.getFsLong addr) (s.getFsLong (addr + 4)))

def emuGetBCD (code : BitVec 16) : Emu TempReal := do
  let addr ← ea code
  let s ← get
  ended (getBCD fun k => s.memory (addr + .ofNat 32 k))

def putShortReal (t : TempReal) (code : BitVec 16) : Emu Unit := do
  let addr ← ea code
  putFsLong addr (tempToShort (← rounding) t)

def putLongReal (t : TempReal) (code : BitVec 16) : Emu Unit := do
  let addr ← ea code
  let x := tempToLong (← rounding) t
  putFsLong addr x.a
  putFsLong (addr + 4) x.b

def putTempReal (t : TempReal) (code : BitVec 16) : Emu Unit := do
  let addr ← ea code
  putFsLong addr t.a
  putFsLong (addr + 4) t.b
  putFsWord (addr + 8) t.exponent

/-- `real_to_int` calls `set_OE`. -/
def emuRealToInt (t : TempReal) : Emu Unit := do
  let r ← rounding
  modifyI387 fun c => { c with swd := if (realToInt r t).2 then set_OE c.swd else c.swd }

def emuPutShortInt (t : TempReal) (code : BitVec 16) : Emu Unit := do
  let addr ← ea code
  emuRealToInt t
  putFsWord addr (putShortInt (← rounding) t)

def emuPutLongInt (t : TempReal) (code : BitVec 16) : Emu Unit := do
  let addr ← ea code
  emuRealToInt t
  putFsLong addr (putLongInt (← rounding) t)

def emuPutLonglongInt (t : TempReal) (code : BitVec 16) : Emu Unit := do
  let addr ← ea code
  emuRealToInt t
  let x := putLonglongInt (← rounding) t
  putFsLong addr x.1
  putFsLong (addr + 4) x.2

def emuPutBCD (t : TempReal) (code : BitVec 16) : Emu Unit := do
  let addr ← ea code
  emuRealToInt t
  let bytes := putBCD (← rounding) t fun _ => 0
  for k in List.range 10 do putFsByte (addr + .ofNat 32 k) (bytes k)

/-! ## The first `switch` -/

def illegal : Emu Unit := mathAbort (1 <<< (SIGILL - 1))

/-- A constant is loaded. -/
def loadConstant (t : TempReal) : Emu Unit := do
  fpush
  setST 0 t

def CONSTZ : TempReal := ⟨0, 0, 0⟩

def CONST1 : TempReal := ⟨0, 0x80000000, 0x3fff⟩

def CONSTPI : TempReal := ⟨0x2168c235, 0xc90fdaa2, 0x4000⟩

def CONSTLN2 : TempReal := ⟨0xd1cf79ac, 0xb17217f7, 0x3ffe⟩

def CONSTLG2 : TempReal := ⟨0xfbcff799, 0x9a209a84, 0x3ffd⟩

def CONSTL2E : TempReal := ⟨0x5c17f0bc, 0xb8aa3b29, 0x3fff⟩

def CONSTL2T : TempReal := ⟨0xcd1b8afe, 0xd49a784b, 0x4000⟩

/-- `fcom(PST(i),PST(0))` -/
def compare (i : BitVec 16) : Emu Unit := do
  let src ← ST i
  let st0 ← ST 0
  emuCom src st0

def initialise (c : I387) : I387 := { c with cwd := 0x037f, swd := 0, twd := 0 }

def special (code : BitVec 16) : Option (Emu Unit) :=
  match code.toNat with
  | 0x1d0 => some (pure ())
  | 0x1d1 | 0x1d2 | 0x1d3 | 0x1d4 | 0x1d5 | 0x1d6 | 0x1d7 => some illegal
  | 0x1e0 => some do setST 0 (← ST 0).neg
  | 0x1e1 => some do
    let t ← ST 0
    setST 0 { t with exponent := t.exponent &&& 0x7fff }
  | 0x1e2 | 0x1e3 => some illegal
  | 0x1e4 => some do
    let t ← ST 0
    modifyI387 fun c => { c with swd := ftst t c.swd }
  | 0x1e5 | 0x1e6 | 0x1e7 => some illegal
  | 0x1e8 => some (loadConstant CONST1)
  | 0x1e9 => some (loadConstant CONSTL2T)
  | 0x1ea => some (loadConstant CONSTL2E)
  | 0x1eb => some (loadConstant CONSTPI)
  | 0x1ec => some (loadConstant CONSTLG2)
  | 0x1ed => some (loadConstant CONSTLN2)
  | 0x1ee => some (loadConstant CONSTZ)
  | 0x1ef => some illegal
  | 0x1f0 | 0x1f1 | 0x1f2 | 0x1f3 | 0x1f4 | 0x1f5 | 0x1f6 | 0x1f7 => some illegal
  | 0x1f8 | 0x1f9 | 0x1fa | 0x1fb | 0x1fc | 0x1fd | 0x1fe | 0x1ff => some illegal
  | 0x2e9 => some do
    compare 1
    fpop
    fpop
  | 0x3d0 | 0x3d1 => some (pure ())
  | 0x3e2 => some (modifyI387 fun c => { c with swd := c.swd &&& 0x7f00 })
  | 0x3e3 => some (modifyI387 initialise)
  | 0x3e4 => some (pure ())
  | 0x6d9 => some do
    compare 1
    fpop
    fpop
  | 0x7e0 => some fun s =>
    let eax := (s.info.eax &&& 0xffff0000) ||| (s.i387.swd &&& 0x0000ffff)
    .ok () { s with info := { s.info with eax := eax } }
  | _ => none

/-! ## The second `switch` -/

/-- `op(PST(x),PST(y),&tmp); real_to_real(&tmp,&ST(dest))` -/
def arith (op : TempReal → TempReal → TempReal → Emu TempReal) (tmp : TempReal) (x y dest : BitVec 16) : Emu Unit := do
  let src1 ← ST x
  let src2 ← ST y
  let tmp ← op src1 src2 tmp
  setST dest tmp

/-- `real_to_real(&ST(y),&tmp); tmp.exponent ^= 0x8000; fadd(PST(x),&tmp,&tmp); real_to_real(&tmp,&ST(dest))` -/
def subtract (x y dest : BitVec 16) : Emu Unit := do
  let tmp := (← ST y).neg
  let src1 ← ST x
  let tmp ← emuAdd src1 tmp tmp
  setST dest tmp

/-- `ST(dest).exponent ^= 0x8000; fadd(PST(0),PST(i),&tmp); real_to_real(&tmp,&ST(dest))` -/
def reverse (tmp : TempReal) (i dest : BitVec 16) : Emu Unit := do
  setST dest (← ST dest).neg
  arith emuAdd tmp 0 i dest

/-- `fcom(PST(i),&tmp); real_to_real(&tmp,&ST(0))` -/
def compareTmp (tmp : TempReal) (i : BitVec 16) : Emu Unit := do
  emuCom (← ST i) tmp
  setST 0 tmp

/-- `fxchg(&ST(0),&ST(i))` -/
def exchange (i : BitVec 16) : Emu Unit := do
  let a ← ST 0
  let b ← ST i
  setST 0 b
  setST i a

/-- `ST(i) = ST(0)` -/
def store (i : BitVec 16) : Emu Unit := do setST i (← ST 0)

def popping (act : Emu Unit) : Emu Unit := do
  act
  fpop

/-- With `code >> 3` and `code & 7` -/
def register (tmp : TempReal) (group i : BitVec 16) : Option (Emu Unit) :=
  match group.toNat with
  | 0x18 => some (arith emuAdd tmp 0 i 0)
  | 0x19 => some (arith emuMul tmp 0 i 0)
  | 0x1a => some (compareTmp tmp i)
  | 0x1b => some (popping (compareTmp tmp i))
  | 0x1c => some (subtract 0 i 0)
  | 0x1d => some (reverse tmp i 0)
  | 0x1e => some (arith emuDiv tmp 0 i 0)
  | 0x1f => some (arith emuDiv tmp i 0 0)
  | 0x38 => some do
    fpush
    setST 0 (← ST (i + 1))
  | 0x39 => some (exchange i)
  | 0x3b => some (popping (store i))
  | 0x98 => some (arith emuAdd tmp 0 i i)
  | 0x99 => some (arith emuMul tmp 0 i i)
  | 0x9a => some (compare i)
  | 0x9b => some (popping (compare i))
  | 0x9c => some (reverse tmp i i)
  | 0x9d => some (subtract i 0 i)
  | 0x9e => some (arith emuDiv tmp 0 i i)
  | 0x9f => some (arith emuDiv tmp i 0 i)
  | 0xb8 => some illegal
  | 0xb9 => some (exchange i)
  | 0xba => some (store i)
  | 0xbb => some (popping (store i))
  | 0xbc => some (compare i)
  | 0xbd => some (popping (compare i))
  | 0xd8 => some (popping (arith emuAdd tmp i 0 i))
  | 0xd9 => some (popping (arith emuMul tmp i 0 i))
  | 0xda => some (popping (compare i))
  | 0xdc => some (popping (reverse tmp i i))
  | 0xdd => some (popping (subtract i 0 i))
  | 0xde => some (popping (arith emuDiv tmp 0 i i))
  | 0xdf => some (popping (arith emuDiv tmp i 0 i))
  | 0xf8 => some illegal
  | 0xf9 => some (exchange i)
  | 0xfa | 0xfb => some (popping (store i))
  | _ => none

/-! ## The third `switch` -/

/-- `ST(0)` is stored. -/
def storing (put : TempReal → BitVec 16 → Emu Unit) (code : BitVec 16) : Emu Unit := do put (← ST 0) code

/-- `fpush(); get(&tmp,info,code); real_to_real(&tmp,&ST(0))` -/
def loading (read : BitVec 16 → Emu TempReal) (code : BitVec 16) : Emu Unit := do
  fpush
  let tmp ← read code
  setST 0 tmp

/-- The first words of the image are loaded, one after the other. -/
def loadWords (count : ℕ) (code : BitVec 16) : Emu Unit := do
  let address ← ea code
  for k in List.range count do
    let s ← get
    modifyI387 fun c => c.setWord k (s.getFsLong (address + .ofNat 32 (4 * k)))

def storeWords (count : ℕ) (code : BitVec 16) : Emu Unit := do
  let address ← ea code
  for k in List.range count do
    let s ← get
    putFsLong (address + .ofNat 32 (4 * k)) (s.i387.word k)

/-- With `(code >> 3) & 0xe7` -/
def transfer (group code : BitVec 16) : Option (Emu Unit) :=
  match group.toNat with
  | 0x22 => some (storing putShortReal code)
  | 0x23 => some (popping (storing putShortReal code))
  | 0x24 => some (loadWords 7 code)
  | 0x25 => some do
    let address ← ea code
    let s ← get
    modifyI387 fun c => { c with cwd := (c.cwd &&& 0xffff0000) ||| (s.getFsWord address).setWidth 32 }
  | 0x26 => some (storeWords 7 code)
  | 0x27 => some do
    let address ← ea code
    let s ← get
    putFsWord address (s.i387.cwd.setWidth 16)
  | 0x62 => some (storing emuPutLongInt code)
  | 0x63 => some (popping (storing emuPutLongInt code))
  | 0x65 => some (loading getTempReal code)
  | 0x67 => some (popping (storing putTempReal code))
  | 0xa2 => some (storing putLongReal code)
  | 0xa3 => some (popping (storing putLongReal code))
  | 0xa4 => some (loadWords 27 code)
  | 0xa6 => some do
    storeWords 27 code
    modifyI387 initialise
  | 0xa7 => some do
    let address ← ea code
    let s ← get
    putFsWord address (s.i387.swd.setWidth 16)
  | 0xe2 => some (storing emuPutShortInt code)
  | 0xe3 => some (popping (storing emuPutShortInt code))
  | 0xe4 => some (loading emuGetBCD code)
  | 0xe5 => some (loading emuGetLonglongInt code)
  | 0xe6 => some (popping (storing emuPutBCD code))
  | 0xe7 => some (popping (storing emuPutLonglongInt code))
  | _ => none

/-! ## The operand in memory -/

/-- `switch (code >> 9)` -/
def operand (tmp : TempReal) (code : BitVec 16) : Emu TempReal :=
  match (code >>> 9).toNat with
  | 0 => getShortReal code
  | 1 => emuGetLongInt code
  | 2 => getLongReal code
  | 4 => emuGetShortInt code
  | _ => pure tmp

/-- `op(&tmp,PST(0),&tmp); real_to_real(&tmp,&ST(0))` -/
def withST0 (op : TempReal → TempReal → TempReal → Emu TempReal) (src tmp : TempReal) : Emu Unit := do
  let st0 ← ST 0
  let tmp ← op src st0 tmp
  setST 0 tmp

/-- `switch ((code>>3) & 0x27)` and what follows it -/
def memory (tmp : TempReal) (code : BitVec 16) : Emu Unit :=
  match (code >>> 3 &&& 0x27).toNat with
  | 0 => withST0 emuAdd tmp tmp
  | 1 => withST0 emuMul tmp tmp
  | 2 => do emuCom tmp (← ST 0)
  | 3 => do
    emuCom tmp (← ST 0)
    fpop
  | 4 => withST0 emuAdd tmp.neg tmp.neg
  | 5 => do
    setST 0 (← ST 0).neg
    withST0 emuAdd tmp tmp
  | 6 => do
    let st0 ← ST 0
    let tmp ← emuDiv st0 tmp tmp
    setST 0 tmp
  | 7 => withST0 emuDiv tmp tmp
  | _ =>
    if code &&& 0x138 = 0x100 then do
      fpush
      setST 0 tmp
    else mathAbort (1 <<< (SIGFPE - 1))

/-! ## `do_emu` -/

/-- `if (I387.cwd & I387.swd & 0x3f)` -/
def I387.busy (c : I387) : I387 :=
  { c with swd := if c.cwd &&& c.swd &&& 0x3f ≠ 0 then c.swd ||| 0x8000 else c.swd &&& 0x7fff }

/-- `ORIG_EIP = EIP`, and the test of `CS` -/
def enter : Emu Unit := fun s =>
  let s := { s with i387 := s.i387.busy, info := { s.info with origEip := s.info.eip } }
  if s.info.cs.setWidth 16 ≠ (0x000f : BitVec 16) then .error .panic s else .ok () s

/-- `code = get_fs_word(EIP); bswapw(code); code &= 0x7ff`, with the fields that keep it -/
def fetch : Emu (BitVec 16) := fun s =>
  let word := s.getFsWord s.info.eip
  let code := (word.setWidth 8 ++ (word >>> 8).setWidth 8 : BitVec 16) &&& 0x7ff
  let i387 := { s.i387 with fip := s.info.eip, fcs := code ++ s.info.cs.setWidth 16 }
  .ok code { s with i387 := i387, info := { s.info with eip := s.info.eip + 2 } }

def execute (tmp : TempReal) (code : BitVec 16) : Emu Unit :=
  match special code with
  | some act => act
  | none =>
    match register tmp (code >>> 3) (code &&& 7) with
    | some act => act
    | none =>
      match transfer (code >>> 3 &&& 0xe7) code with
      | some act => act
      | none => do
        let tmp ← operand tmp code
        memory tmp code

def doEmu (tmp : TempReal) : Emu Unit := do
  enter
  let code ← fetch
  execute tmp code

end Linux012.Math
