import Linux012.Fs.Blocks.Balance
import Linux012.Lib.Index

/-! # Small runs of the functions that use blocks

A block is freed that no buffer has. With 255 references to a buffer the next one makes its count 0, and
`brelse` panics in `_bmap`.
-/

namespace Linux012.Blocks

open Function Coop Runs Buffer
open FileDev (Block)
open scoped Index

/-! ## Frames that hold nothing -/

/-- The frames of a search for a buffer -/
def idleCache : Buffer.Frame → Bool
  | .getHashTable .. | .getblk .. | .getblkScan .. | .getblkWait .. | .bread .. | .breadGot => true
  | _ => false

def Frame.idle : Frame → Bool
  | .cache f => idleCache f
  | .run _ held _ => held = 0
  | .wait _ held _ _ => held = 0
  | .kernel held => held = 0
  | .kernelWait held _ => held = 0

/-- A device 0x300 with the data zones 1 to 9, and an inode whose indirect block is the block 1 -/
def smallWorld : World where
  inodeTable _ :=
    { iMode := 0, iUid := 0, iSize := 0, iMtime := 0, iGid := 0, iNlinks := 0
      iZone := fun k => if k = 7 then 1 else 0
      iAtime := 0, iCtime := 0, iDev := 0x300, iNum := 1, iLock := false, iDirt := false, iPipe := false }
  superBlock _ :=
    { sNzones := 10, sImapBlocks := 1, sZmapBlocks := 1, sFirstdatazone := 1, sZmap := fun _ => none
      sDev := 0x300, sLock := false }
  fileTable _ := { fFlags := 0, fPos := 0 }
  blkSize _ := none
  memory _ := 0
  currentTime := 0

def twoBuffers : Cache Block :=
  bufferInit 0 (2 * (BLOCK_SIZE + sizeofBufferHead)) ⟨fun _ _ => 0, fun _ => 0⟩ (fun _ => false) fun _ _ _ => 0

def start : State 1 Sys Frame AnyPanic := initial 1 smallWorld twoBuffers

def freeing : State 1 Sys Frame AnyPanic :=
  ((program 1).step (.run 0 (.call (.fn (.freeBlock 0x300 1)))) start).get (by decide +kernel)

def goSteps (k : ℕ) : List (Act 1 Choice Intr) := List.replicate k (.run 0 .go)

/-- The last step of the call is left. -/
def released : State 1 Sys Frame AnyPanic :=
  (runList (program 1).step (goSteps 5) freeing).get (by decide +kernel)

def freed : State 1 Sys Frame AnyPanic := ((program 1).step (.run 0 .go) released).get (by decide +kernel)

/-- A task has got a block, and has stored into its buffer. -/
def oneHeld : State 1 Sys Frame AnyPanic :=
  (runList (program 1).step ([.run 0 (.call (.getblk 0x300 1))] ++ goSteps 3 ++ [.run 0 (.store 0 fun _ => 0)])
    start).get (by decide +kernel)

end Linux012.Blocks
