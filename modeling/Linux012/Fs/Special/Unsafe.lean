import Linux012.Fs.Special.Safe
import Linux012.Lib.Index

/-! # Device numbers that are not safe

`read_inode` looks up the size of every block special file, and `block_write` takes whole blocks without
reading them, whether there is a driver or not.
-/

namespace Linux012.Special

open Function Coop Buffer Cache Runs
open scoped Index

variable {cfg : Config} {s s' : Sys} {f g : Frame} {fs : List Frame} {dev root : Dev} {ch : Choice}
  {special : Set Dev}

/-- What memory holds before it is used -/
def zeros : Junk Block := ⟨fun _ _ => 0, fun _ => 0⟩

/-- A cache of two buffers -/
def twoBuffers (cfg : Config) : Cache Block :=
  bufferInit 0 (2 * (BLOCK_SIZE + sizeofBufferHead)) zeros cfg.requestFn fun _ _ _ => 0

theorem twoBuffers_nrBuffers (cfg : Config) : (twoBuffers cfg).nrBuffers = 2 := by
  rfl

/-- The calls are about these inodes. -/
def About (special : Set Dev) (_ : State 1 Sys Frame Panic) (a : Act 1 Choice (EndRequest Block)) : Prop :=
  ∀ t ch, a = .run t ch → ∀ dev, ch.inodeDev = some dev → dev ∈ special

/-- A single task comes to this point. -/
def Reaches (cfg : Config) (special : Set Dev) (root : Dev) (s : Sys) (fs : List Frame) : Prop :=
  ∃ S : State 1 Sys Frame Panic,
    Run (program cfg (fun _ => none) 1).step (About special) (initial (fun _ => false) root (twoBuffers cfg)) S ∧
      S.shared = s ∧ S.stack 0 = fs ∧ (S.cpu = none ∨ S.cpu = some 0) ∧ S.panicked = none

namespace Reaches

theorem start : Reaches cfg special root ⟨twoBuffers cfg, [root], []⟩ [.file (.user none)] :=
  ⟨_, .refl, rfl, rfl, .inl rfl, rfl⟩

theorem safe (h : Reaches cfg special root s fs) (hroot : Served cfg root) (halways : AlwaysSafe cfg special) :
    Safe cfg s := by
  obtain ⟨S, hrun, rfl, -⟩ := h
  exact halways 1 _ _ _ _ _ _ root hroot S hrun

theorem step {fs' : List Frame} {nx : Next Frame Value Panic} (h : Reaches cfg special root s (f :: fs))
    (hch : ∀ dev, ch.inodeDev = some dev → dev ∈ special) (hx : exec cfg (fun _ => none) s ch f = some (s', nx))
    (he : ∀ S, (program cfg (fun _ => none) 1).enter S 0 fs s' nx =
      some { S with shared := s', stack := update S.stack 0 fs', cpu := some 0 }) :
    Reaches cfg special root s' fs' := by
  obtain ⟨⟨s, stack, cpu, panicked⟩, hrun, rfl, hst, hcpu, hp⟩ := h
  dsimp only at hst hcpu hp hx
  subst hp
  have hstep : (program cfg (fun _ => none) 1).step (.run 0 ch) ⟨s, stack, cpu, none⟩ =
      some ⟨s', update stack 0 fs', some 0, none⟩ := by
    simp only [Program.step, hcpu, if_true, Program.runTask, hst]
    show (exec cfg (fun _ => none) s ch f).bind _ = _
    rw [hx]
    exact he ⟨s, stack, cpu, none⟩
  have habout : About special ⟨s, stack, cpu, none⟩ (.run 0 ch) := by
    rintro t ch' ⟨⟩
    exact hch
  have hstack : update stack 0 fs' 0 = fs' := update_self ..
  exact ⟨_, hrun.tail habout hstep, rfl, hstack, .inr rfl, rfl⟩

theorem goto (h : Reaches cfg special root s (f :: fs)) (ch : Choice)
    (hch : ∀ dev, ch.inodeDev = some dev → dev ∈ special)
    (hx : exec cfg (fun _ => none) s ch f = some (s', .goto g)) : Reaches cfg special root s' (g :: fs) :=
  h.step hch hx fun _ => rfl

theorem call {k : Frame} (h : Reaches cfg special root s (f :: fs))
    (hch : ∀ dev, ch.inodeDev = some dev → dev ∈ special)
    (hx : exec cfg (fun _ => none) s ch f = some (s', .call g k)) : Reaches cfg special root s' (k :: g :: fs) :=
  h.step hch hx fun _ => rfl

theorem ret {v : Value} {k : Frame} (h : Reaches cfg special root s (f :: g :: fs))
    (hch : ∀ dev, ch.inodeDev = some dev → dev ∈ special)
    (hx : exec cfg (fun _ => none) s ch f = some (s', .ret v)) (hr : resume g v = some k) :
    Reaches cfg special root s' (k :: fs) := by
  refine h.step hch hx fun S => ?_
  show (resume g v).map _ = _
  rw [hr]
  rfl

end Reaches

/-! ## Indices -/

theorem reaches_iget (hdev : dev ∈ special) :
    Reaches cfg special root ⟨twoBuffers cfg, [root], cfg.sizeAccesses dev⟩ [.file (.user none)] := by
  refine Reaches.start.goto (.iget dev) ?_ rfl
  rintro d ⟨⟩
  exact hdev

/-! ## Dirty buffers -/

/-- A whole block of zeros -/
def write (dev : Dev) : BlockDev.BlockWrite where
  dev := dev
  pos := 0
  block := 0
  offset := 0
  written := 0
  buf := List.replicate 1024 0

/-- The number is not that of a device with a driver, and has no sizes. -/
def Driverless (cfg : Config) (dev : Dev) : Prop :=
  cfg.requestFn (major dev) = false ∧ cfg.blkSize[major dev]? = some none

theorem size_driverless (h : Driverless cfg dev) :
    BlockDev.size (cfg.sizes fun _ => none) dev = 0x7fffffff := by
  unfold BlockDev.size Config.sizes
  rw [h.2]

theorem findBuffer_twoBuffers (cfg : Config) (dev : Dev) :
    findBuffer (twoBuffers cfg) dev (BlockDev.blockNr 0) = none := by
  have hhash : (twoBuffers cfg).hashTable (hashfn dev (BlockDev.blockNr 0)) = none := by
    unfold twoBuffers bufferInit
    dsimp only
    exact if_pos (hashfn_lt _ _)
  unfold findBuffer
  rw [hhash]
  rfl

theorem blockWrite_write {size : BlockDev.BlkSize} (h : BlockDev.size size dev = 0x7fffffff) :
    BlockDev.blockWrite size (write dev) =
      .call (.writeGot (write dev) 1024) (.cache (.getblk dev (BlockDev.blockNr 0))) := by
  have hroom : ¬ (write dev).block ≥ BlockDev.size size (write dev).dev := by
    show ¬ 0 ≥ BlockDev.size size dev
    rw [h]
    decide
  have hlen : (write dev).buf.length = 1024 := List.length_replicate
  have hsome : (write dev).buf ≠ [] := by
    intro hnil
    rw [hnil] at hlen
    exact nomatch hlen
  have hchars : min (BLOCK_SIZE - (write dev).offset) (write dev).buf.length = 1024 := by
    rw [hlen]
    rfl
  unfold BlockDev.blockWrite
  rw [if_neg hsome, if_neg hroom]
  dsimp only
  rw [hchars]
  rfl

theorem exec_file {c c' : Cache Block} {mounted : List Dev} {l : List Access} {file : BlockDev.Frame}
    {nx : Next BlockDev.Frame Value Panic} (huser : ∀ last, file ≠ .user last)
    (hcode : ∀ held, file ≠ .cache (.code held))
    (hx : BlockDev.run (cfg.sizes fun _ => none) c (.cache .done) file = some (c', nx)) :
    exec cfg (fun _ => none) ⟨c, mounted, l⟩ (.file (.cache .done)) (.file file) =
      some (⟨c', mounted, l ++ accesses cfg c file (.cache .done)⟩, nx.map .file) := by
  have hpermitted : permitted ⟨c, mounted, l⟩ file (.cache .done) = true := by
    unfold permitted
    split
    · exact absurd rfl (hcode _)
    · rfl
  have hexec : exec cfg (fun _ => none) ⟨c, mounted, l⟩ (.file (.cache .done)) (.file file) =
      execFile cfg (fun _ => none) ⟨c, mounted, l⟩ file (.cache .done) := by
    cases file with
    | user last => exact absurd rfl (huser last)
    | _ => rfl
  rw [hexec]
  unfold execFile
  rw [if_pos hpermitted]
  dsimp only
  rw [hx]
  rfl

theorem run_cache {c c' : Cache Block} {size : BlockDev.BlkSize} {f : Buffer.Frame}
    {nx : Next Buffer.Frame Value Panic} (hx : Buffer.exec c .done f = some (c', nx)) :
    BlockDev.run size c (.cache .done) (.cache f) = some (c', nx.map .cache) := by
  unfold BlockDev.run
  dsimp only
  rw [hx]
  rfl

/-- The buffer that `getblk` has taken for the block -/
theorem reaches_getblk (root : Dev) (h : Driverless cfg dev) (hdev : dev ∈ special) :
    ∃ c l, c.dev 0 = dev ∧ c.nrBuffers = 2 ∧
      Reaches cfg special root ⟨c, [root], l⟩ [.file (.writeStore (write dev) 1024 0)] := by
  have hnone : ∀ d, (Choice.file (.cache .done)).inodeDev = some d → d ∈ special := fun d hd => nomatch hd
  have htwo : 2 ≤ (twoBuffers cfg).nrBuffers := (twoBuffers_nrBuffers cfg).ge
  have hrep : RepInv (twoBuffers cfg) := repInv_bufferInit _ _ _ _ _ htwo
  have hfind := findBuffer_twoBuffers cfg dev
  obtain ⟨c, hrekey, -, hsame⟩ := hrep.rekey htwo (Nat.lt_of_lt_of_le Nat.zero_lt_two htwo) hfind
  have hcall : Reaches cfg special root ⟨twoBuffers cfg, [root], [] ++ cfg.sizeAccesses dev⟩
      [.file (.write (write dev))] := by
    refine Reaches.start.goto (.file (.blockWrite dev 0 (List.replicate 1024 0))) ?_ rfl
    rintro d ⟨⟩
    exact hdev
  have hwrite : BlockDev.run (cfg.sizes fun _ => none) (twoBuffers cfg) (.cache .done) (.write (write dev)) =
      some (twoBuffers cfg, .call (.writeGot (write dev) 1024) (.cache (.getblk dev (BlockDev.blockNr 0)))) :=
    congrArg (fun nx => some (twoBuffers cfg, nx)) (blockWrite_write (size_driverless h))
  have hlook : Buffer.exec (twoBuffers cfg) .done (.getblk dev (BlockDev.blockNr 0)) =
      some (twoBuffers cfg, .goto (.getblkScan dev (BlockDev.blockNr 0))) := by
    show some (lookup _ _ _ _ _) = _
    unfold lookup
    rw [hfind]
  have hscan : Buffer.exec (twoBuffers cfg) .done (.getblkScan dev (BlockDev.blockNr 0)) =
      some (twoBuffers cfg, .goto (.getblkWait dev (BlockDev.blockNr 0) 0)) := rfl
  have htake : Buffer.exec (twoBuffers cfg) .done (.getblkWait dev (BlockDev.blockNr 0) 0) =
      some (c, .ret (some 0)) := by
    have hlock : ((twoBuffers cfg).heads 0).bLock = false := rfl
    have hcount : ((twoBuffers cfg).heads 0).bCount = 0 := rfl
    have hdirt : ((twoBuffers cfg).heads 0).bDirt = false := rfl
    show some (takeFree _ _ _ _) = _
    unfold takeFree waitOnBuffer
    rw [hlock, hcount, hdirt, hfind, hrekey]
    rfl
  have h₁ := hcall.call hnone (exec_file (by rintro _ ⟨⟩) (by rintro _ ⟨⟩) hwrite)
  have h₂ := h₁.goto _ hnone (exec_file (by rintro _ ⟨⟩) (by rintro _ ⟨⟩) (run_cache hlook))
  have h₃ := h₂.goto _ hnone (exec_file (by rintro _ ⟨⟩) (by rintro _ ⟨⟩) (run_cache hscan))
  have h₄ := h₃.ret hnone (exec_file (by rintro _ ⟨⟩) (by rintro _ ⟨⟩) (run_cache htake)) rfl
  refine ⟨c, _, ?_, ?_, h₄⟩
  · rw [hsame.dev]
    unfold Cache.dev
    rw [heads_upd_self]
    rfl
  · rw [hsame.nrBuffers]
    exact twoBuffers_nrBuffers cfg

/-- The block is stored, and nobody will write the buffer. -/
theorem reaches_dirty (root : Dev) (h : Driverless cfg dev) (hdev : dev ∈ special) :
    ∃ s fs, Reaches cfg special root s fs ∧ s.cache.nrBuffers = 2 ∧ (s.cache.heads 0).bDirt = true ∧
      s.cache.dev 0 = dev := by
  obtain ⟨c, l, hd, hn, hgot⟩ := reaches_getblk root h hdev
  have hnone : ∀ d, (Choice.file (.cache .done)).inodeDev = some d → d ∈ special := fun d hd => nomatch hd
  have hstore : BlockDev.run (cfg.sizes fun _ => none) c (.cache .done) (.writeStore (write dev) 1024 0) =
      some (BlockDev.blockWriteStore c (write dev) 1024 0) := rfl
  have hcall := hgot.call hnone (exec_file (by rintro _ ⟨⟩) (by rintro _ ⟨⟩) hstore)
  refine ⟨_, _, hcall, hn, ?_, ?_⟩
  · dsimp only
    rw [heads_upd_self]
  · dsimp only [Cache.dev]
    rw [heads_upd_self]
    exact hd

/-! ## When they are safe -/

theorem served_cases (cfg : Config) (dev : Dev) :
    Served cfg dev ∨ Driverless cfg dev ∨ ∃ a ∈ cfg.sizeAccesses dev, ¬ a.InBounds := by
  have hlen := cfg.length_hdSizes
  unfold MAX_HD at hlen
  unfold Served Driverless
  by_cases hmaj : major dev < NR_BLK_DEV
  · unfold NR_BLK_DEV at hmaj
    unfold Config.sizeAccesses
    interval_cases hm : major dev
    · exact .inr (.inl ⟨rfl, rfl⟩)
    · cases hrd : cfg.ramdisk with
      | false => exact .inr (.inl ⟨hrd, rfl⟩)
      | true => exact .inl (.inl ⟨rfl, rfl⟩)
    · by_cases hmin : minor dev < 32
      · exact .inl (.inr (.inl ⟨rfl, hmin⟩))
      · exact .inr (.inr ⟨_, List.mem_cons_of_mem _ (List.mem_singleton_self _), hmin⟩)
    · by_cases hmin : minor dev < 10
      · exact .inl (.inr (.inr ⟨rfl, hmin⟩))
      · refine .inr (.inr ⟨_, List.mem_cons_of_mem _ (List.mem_singleton_self _), ?_⟩)
        show ¬ minor dev < cfg.hdSizes.length
        omega
    · exact .inr (.inl ⟨rfl, rfl⟩)
    · exact .inr (.inl ⟨rfl, rfl⟩)
    · exact .inr (.inl ⟨rfl, rfl⟩)
  · exact .inr (.inr ⟨.blkSize (major dev), List.mem_cons_self, hmaj⟩)

theorem served_of_alwaysSafe (h : AlwaysSafe cfg special) (hdev : dev ∈ special) : Served cfg dev := by
  have hroot : Served cfg 0x0301 := .inr (.inr ⟨rfl, by decide⟩)
  rcases served_cases cfg dev with hserved | hdriverless | ⟨a, ha, hout⟩
  · exact hserved
  · obtain ⟨s, fs, hreach, hn, hdirt, hd⟩ := reaches_dirty 0x0301 hdriverless hdev
    have hdriver := (hreach.safe hroot h).dirty 0 (hn ▸ Nat.zero_lt_two) hdirt
    rw [hd, hdriverless.1] at hdriver
    exact nomatch hdriver
  · exact absurd (((reaches_iget hdev).safe hroot h).indexed a ha) hout

/-- Device numbers in inodes are safe just if all of them are those of devices that are served. -/
theorem alwaysSafe_iff (cfg : Config) (special : Set Dev) :
    AlwaysSafe cfg special ↔ ∀ dev ∈ special, Served cfg dev := by
  constructor
  · exact fun h dev hdev => served_of_alwaysSafe h hdev
  · exact alwaysSafe_of_served

/-- One hard disk, no ram disk -/
def oneDisk : Config := ⟨false, 1, [40000, 20000, 20000, 0, 0, 0, 0, 0, 0, 0], by decide, rfl⟩

/-- A block that is written to a block special file with the number of `tty0` stays in the cache; a look at
one with the number 7,0 leaves `blk_size`. -/
theorem tty_not_written :
    (∃ s fs, Reaches oneDisk {0x0400} 0x0301 s fs ∧ (s.cache.heads 0).bDirt = true ∧ s.cache.dev 0 = 0x0400 ∧
      oneDisk.requestFn (major (s.cache.dev 0)) = false) ∧
    (∃ s fs, Reaches oneDisk {0x0700} 0x0301 s fs ∧ ∃ a ∈ s.indexed, ¬ a.InBounds) ∧
    ¬ ∀ dev, AlwaysSafe oneDisk {dev} := by
  have hdriverless : Driverless oneDisk 0x0400 := ⟨rfl, rfl⟩
  refine ⟨?_, ?_, ?_⟩
  · obtain ⟨s, fs, hreach, -, hdirt, hd⟩ := reaches_dirty 0x0301 hdriverless (Set.mem_singleton _)
    refine ⟨s, fs, hreach, hdirt, hd, ?_⟩
    rw [hd]
    rfl
  · refine ⟨_, _, reaches_iget (Set.mem_singleton _), .blkSize (major 0x0700), List.mem_cons_self, ?_⟩
    exact (by decide : ¬ 7 < 7)
  · intro h
    rcases served_of_alwaysSafe (h 0x0700) (Set.mem_singleton _) with ⟨hmaj, -⟩ | ⟨hmaj, -⟩ | ⟨hmaj, -⟩
    · exact absurd hmaj (by decide)
    · exact absurd hmaj (by decide)
    · exact absurd hmaj (by decide)

end Linux012.Special
