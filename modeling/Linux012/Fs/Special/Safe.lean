import Linux012.Fs.Special.Basic

/-! # When device numbers are safe

With numbers of devices that are served, every buffer that is changed belongs to one of them. Any other
number leads out of a table or leaves a buffer that nobody writes.
-/

namespace Linux012.Special

open Function Coop Buffer Cache Runs

variable {cfg : Config} {beyond : BlockDev.BlkSize} {s s' : Sys} {f g : Frame} {ch : Choice}
  {nx : Next Frame Value Panic} {dev : Dev}

/-! ## Served devices -/

theorem served_sizes (h : Served cfg dev) : ∀ a ∈ cfg.sizeAccesses dev, a.InBounds := by
  intro a ha
  have hlen := cfg.length_hdSizes
  unfold MAX_HD at hlen
  unfold Config.sizeAccesses Config.blkSize at ha
  rcases h with ⟨hmaj, -⟩ | ⟨hmaj, hmin⟩ | ⟨hmaj, hmin⟩ <;> rw [hmaj] at ha
  · rw [List.mem_singleton.mp ha]
    exact (by decide : 1 < 7)
  · rcases List.mem_cons.mp ha with rfl | ha
    · exact (by decide : 2 < 7)
    · rw [List.mem_singleton.mp ha]
      exact hmin
  · rcases List.mem_cons.mp ha with rfl | ha
    · exact (by decide : 3 < 7)
    · rw [List.mem_singleton.mp ha]
      show minor dev < cfg.hdSizes.length
      omega

theorem served_driver (h : Served cfg dev) : ∀ a ∈ cfg.driverAccesses dev, a.InBounds := by
  intro a ha
  have hle := cfg.nrHd_le
  unfold MAX_HD at hle
  unfold Config.driverAccesses at ha
  rcases h with ⟨hmaj, -⟩ | ⟨hmaj, hmin⟩ | ⟨hmaj, hmin⟩ <;> rw [hmaj] at ha
  · exact nomatch ha
  · rw [List.mem_singleton.mp ha]
    show minor dev >>> 2 < 8
    rw [Nat.shiftRight_eq_div_pow]
    omega
  · change a ∈ cfg.hdAccesses dev at ha
    unfold Config.hdAccesses at ha
    split at ha
    · exact nomatch ha
    · rcases List.mem_cons.mp ha with rfl | ha
      · exact hmin
      · rw [List.mem_singleton.mp ha]
        show minor dev / 5 < 2
        omega

theorem served_requestFn (h : Served cfg dev) : cfg.requestFn (major dev) = true := by
  rcases h with ⟨hmaj, hrd⟩ | ⟨hmaj, -⟩ | ⟨hmaj, -⟩ <;> rw [hmaj]
  · exact hrd
  · rfl
  · rfl

/-! ## The invariant -/

/-- The device of the call, and that of the buffer that it changes, is served. -/
def FileAsked (cfg : Config) (c : Cache Block) : BlockDev.Frame → Prop
  | .cache f => Asked (Served cfg) c f
  | .user _ => True
  | .write w => Served cfg w.dev
  | .writeGot w _ => Served cfg w.dev
  | .writeStore w _ bh => Served cfg w.dev ∧ Served cfg (c.dev bh)
  | .read r => Served cfg r.dev
  | .readGot r _ => Served cfg r.dev
  | .readCopy r _ _ => Served cfg r.dev

def FrameAsked (cfg : Config) (s : Sys) : Frame → Prop
  | .file f => FileAsked cfg s.cache f
  | .readSuper dev => Served cfg dev
  | .getSuper dev => Served cfg dev
  | .superGot dev => Served cfg dev
  | .superMaps dev bh => Served cfg dev ∧ Served cfg (s.cache.dev bh)
  | _ => True

structure Good (cfg : Config) (s : Sys) : Prop where
  owned : Owned (Served cfg) s.cache
  mounted : ∀ d ∈ s.mounted, Served cfg d
  indexed : ∀ a ∈ s.indexed, a.InBounds

theorem Good.safe (h : Good cfg s) : Safe cfg s :=
  ⟨h.indexed, fun bh _ hb => served_requestFn (h.owned bh hb)⟩

theorem FileAsked.mono {c c' : Cache Block} {f : BlockDev.Frame} (h : FileAsked cfg c f)
    (hm : Moves (Served cfg) c c') : FileAsked cfg c' f := by
  cases f with
  | cache f => exact Asked.mono h hm
  | writeStore w chars bh => exact ⟨h.1, good_of_moves hm h.2⟩
  | _ => exact h

theorem FrameAsked.mono (h : FrameAsked cfg s f) (hm : Moves (Served cfg) s.cache s'.cache) :
    FrameAsked cfg s' f := by
  cases f with
  | file f => exact FileAsked.mono h hm
  | superMaps dev bh => exact ⟨h.1, good_of_moves hm h.2⟩
  | _ => exact h

theorem FileAsked.resume {c : Cache Block} {f g : BlockDev.Frame} {v : Value} (h : FileAsked cfg c f)
    (hv : ∀ b, v = some b → Served cfg (c.dev b)) (hr : BlockDev.resume f v = some g) : FileAsked cfg c g := by
  cases f with
  | cache f =>
    obtain ⟨g, hg, rfl⟩ := Option.map_eq_some_iff.mp hr
    exact Asked.resume h hv hg
  | writeGot w chars =>
    cases v with
    | none =>
      obtain rfl := Option.some.inj hr
      trivial
    | some bh =>
      obtain rfl := Option.some.inj hr
      exact ⟨h, hv bh rfl⟩
  | readGot r chars =>
    cases v with
    | none =>
      obtain rfl := Option.some.inj hr
      trivial
    | some bh =>
      obtain rfl := Option.some.inj hr
      exact h
  | user last =>
    cases v with
    | none =>
      obtain rfl := Option.some.inj hr
      trivial
    | some bh => exact nomatch hr
  | write w =>
    cases v with
    | none =>
      obtain rfl := Option.some.inj hr
      exact h
    | some bh => exact nomatch hr
  | read r =>
    cases v with
    | none =>
      obtain rfl := Option.some.inj hr
      exact h
    | some bh => exact nomatch hr
  | writeStore w chars bh => cases v <;> exact nomatch hr
  | readCopy r chars bh => cases v <;> exact nomatch hr

theorem FrameAsked.resume {v : Value} (h : FrameAsked cfg s f)
    (hv : ∀ b, v = some b → Served cfg (s.cache.dev b)) (hr : resume f v = some g) : FrameAsked cfg s g := by
  cases f with
  | file f =>
    obtain ⟨g, hg, rfl⟩ := Option.map_eq_some_iff.mp hr
    exact FileAsked.resume h hv hg
  | superGot dev =>
    cases v with
    | none =>
      obtain rfl := Option.some.inj hr
      trivial
    | some bh =>
      obtain rfl := Option.some.inj hr
      exact ⟨h, hv bh rfl⟩
  | getSuper dev =>
    cases v with
    | none =>
      obtain rfl := Option.some.inj hr
      exact h
    | some bh => exact nomatch hr
  | invalidateBuffers dev i =>
    cases v with
    | none =>
      obtain rfl := Option.some.inj hr
      trivial
    | some bh => exact nomatch hr
  | mountDone =>
    cases v with
    | none =>
      obtain rfl := Option.some.inj hr
      trivial
    | some bh => exact nomatch hr
  | _ => cases v <;> exact nomatch hr

/-- What a piece of code leaves when it goes well -/
structure Kept (cfg : Config) (s s' : Sys) (nx : Next Frame Value Panic) : Prop where
  good : Good cfg s'
  moves : Moves (Served cfg) s.cache s'.cache
  frames : ∀ g ∈ nx.frames, FrameAsked cfg s' g
  value : ∀ b, nx = .ret (some b) → Served cfg (s'.cache.dev b)

theorem kept_quiet (hg : Good cfg s) (hf : ∀ g ∈ nx.frames, FrameAsked cfg s g)
    (hv : ∀ b, nx = .ret (some b) → Served cfg (s.cache.dev b)) : Kept cfg s s nx :=
  ⟨hg, moves_of_eq rfl, hf, hv⟩

theorem kept_goto (hg : Good cfg s) (hf : FrameAsked cfg s f) : Kept cfg s s (.goto f) :=
  kept_quiet hg (fun _ hm => List.mem_singleton.mp hm ▸ hf) fun _ hb => nomatch hb

theorem kept_sleep (hg : Good cfg s) (hf : FrameAsked cfg s f) : Kept cfg s s (.sleep f) :=
  kept_quiet hg (fun _ hm => List.mem_singleton.mp hm ▸ hf) fun _ hb => nomatch hb

theorem kept_call (hg : Good cfg s) (hf : FrameAsked cfg s f) (hh : FrameAsked cfg s g) :
    Kept cfg s s (.call f g) := by
  refine kept_quiet hg (fun h hm => ?_) fun _ hb => nomatch hb
  rcases List.mem_cons.mp hm with rfl | hm
  · exact hh
  · exact List.mem_singleton.mp hm ▸ hf

theorem kept_ret (hg : Good cfg s) : Kept cfg s s (.ret none) :=
  kept_quiet hg (fun _ hm => nomatch hm) fun _ hb => nomatch hb

/-! ## The calls of `block_dev.c` -/

/-- The end of a piece of code of a file, as `BlockDev.run` gives it. -/
structure FileKept (cfg : Config) (c c' : Cache Block) (nx : Next BlockDev.Frame Value Panic) : Prop where
  owned : Owned (Served cfg) c'
  moves : Moves (Served cfg) c c'
  frames : ∀ g ∈ nx.frames, FileAsked cfg c' g
  value : ∀ b, nx = .ret (some b) → Served cfg (c'.dev b)

theorem frames_map {F G V P : Type*} (k : F → G) (nx : Next F V P) : (nx.map k).frames = nx.frames.map k := by
  cases nx <;> rfl

theorem ret_of_map {F G V P : Type*} {k : F → G} {nx : Next F V P} {v : V} (h : nx.map k = .ret v) :
    nx = .ret v := by
  cases nx with
  | ret w =>
    obtain rfl : w = v := by
      injection h
    rfl
  | _ => exact nomatch h

section Run

variable {c c' : Cache Block} {size : BlockDev.BlkSize} {file : BlockDev.Frame} {fch : BlockDev.Choice}
  {fnx : Next BlockDev.Frame Value Panic}

theorem fileKept_same (ho : Owned (Served cfg) c) (hf : ∀ g ∈ fnx.frames, FileAsked cfg c g)
    (hv : ∀ b, fnx ≠ .ret (some b)) : FileKept cfg c c fnx :=
  ⟨ho, moves_of_eq rfl, hf, fun b hb => absurd hb (hv b)⟩

theorem asked_breada {c : Cache Block} {dev : Dev} (h : Served cfg dev) (block : BlockNr) (rest : List BlockNr) :
    Asked (Served cfg) c (.breada dev block rest) :=
  ⟨fun _ hd => List.mem_singleton.mp hd ▸ h, fun _ hb => nomatch hb⟩

theorem asked_getblk {c : Cache Block} {dev : Dev} (h : Served cfg dev) (block : BlockNr) :
    Asked (Served cfg) c (.getblk dev block) :=
  ⟨fun _ hd => List.mem_singleton.mp hd ▸ h, fun _ hb => nomatch hb⟩

theorem asked_none {c : Cache Block} {f : Buffer.Frame} (hd : f.devs = []) (hb : f.bufs = []) :
    Asked (Served cfg) c f := by
  refine ⟨fun d h => ?_, fun b h => ?_⟩
  · rw [hd] at h
    exact nomatch h
  · rw [hb] at h
    exact nomatch h

theorem blockWrite_kept {w : BlockDev.BlockWrite} (ho : Owned (Served cfg) c) (hw : Served cfg w.dev) :
    FileKept cfg c c (BlockDev.blockWrite size w) := by
  unfold BlockDev.blockWrite
  split
  · exact fileKept_same ho (fun _ hg => List.mem_singleton.mp hg ▸ trivial) fun _ hb => nomatch hb
  split
  · exact fileKept_same ho (fun _ hg => List.mem_singleton.mp hg ▸ trivial) fun _ hb => nomatch hb
  · refine fileKept_same ho (fun g hg => ?_) fun _ hb => nomatch hb
    rcases List.mem_cons.mp hg with rfl | hg
    · show Asked _ _ _
      split
      · exact asked_getblk hw _
      · exact asked_breada hw _ _
    · rw [List.mem_singleton.mp hg]
      exact hw

theorem blockRead_kept {r : BlockDev.BlockRead} (ho : Owned (Served cfg) c) (hr : Served cfg r.dev) :
    FileKept cfg c c (BlockDev.blockRead size r) := by
  unfold BlockDev.blockRead
  split
  · exact fileKept_same ho (fun _ hg => List.mem_singleton.mp hg ▸ trivial) fun _ hb => nomatch hb
  split
  · exact fileKept_same ho (fun _ hg => List.mem_singleton.mp hg ▸ trivial) fun _ hb => nomatch hb
  · refine fileKept_same ho (fun g hg => ?_) fun _ hb => nomatch hb
    rcases List.mem_cons.mp hg with rfl | hg
    · exact asked_breada hr _ _
    · rw [List.mem_singleton.mp hg]
      exact hr

theorem blockWriteStore_kept {w : BlockDev.BlockWrite} {chars bh : ℕ} (ho : Owned (Served cfg) c)
    (hw : Served cfg w.dev) (hbh : Served cfg (c.dev bh)) :
    FileKept cfg c (BlockDev.blockWriteStore c w chars bh).1 (BlockDev.blockWriteStore c w chars bh).2 := by
  have hd : (BlockDev.blockWriteStore c w chars bh).1.dev = c.dev :=
    funext fun b => field_upd (c := c) BufferHead.bDev (f := fun b => { b with
      bData := Splice.splice b.bData w.offset (w.buf.take chars), bDirt := true, stored := true }) rfl b
  refine ⟨fun b hb => ?_, moves_of_eq hd, fun g hg => ?_, fun _ hb => nomatch hb⟩
  · rw [hd]
    dsimp only [BlockDev.blockWriteStore] at hb
    rw [heads_upd] at hb
    split at hb
    · rename_i heq
      rw [heq]
      exact hbh
    · exact ho b hb
  · rcases List.mem_cons.mp hg with rfl | hg
    · exact asked_none rfl rfl
    · rw [List.mem_singleton.mp hg]
      exact hw

theorem run_kept (ho : Owned (Served cfg) c) (hf : FileAsked cfg c file)
    (hcode : ∀ held ch, file = .cache (.code held) → fch = .cache ch → ∀ d ∈ ch.devs, Served cfg d)
    (huser : ∀ last, file = .user last → ∀ d, (Choice.file fch).inodeDev = some d → Served cfg d)
    (h : BlockDev.run size c fch file = some (c', fnx)) : FileKept cfg c c' fnx := by
  cases file with
  | cache f =>
    unfold BlockDev.run at h
    cases fch with
    | cache ch =>
      obtain ⟨⟨c₁, nx₁⟩, hx, heq⟩ := Option.map_eq_some_iff.mp h
      obtain ⟨rfl, rfl⟩ := Prod.mk.inj heq
      have hleaves := exec_leaves ho hf (fun held he d hd => hcode held ch (he ▸ rfl) rfl d hd) hx
      refine ⟨hleaves.owned, hleaves.moves, fun g hg => ?_, fun b hb => hleaves.value b (ret_of_map hb)⟩
      rw [frames_map] at hg
      obtain ⟨g', hg', rfl⟩ := List.mem_map.mp hg
      exact hleaves.frames g' hg'
    | _ => exact nomatch h
  | user last =>
    unfold BlockDev.run at h
    obtain ⟨nx, hx, heq⟩ := Option.map_eq_some_iff.mp h
    obtain ⟨rfl, rfl⟩ := Prod.mk.inj heq
    cases fch with
    | blockWrite dev pos buf =>
      obtain rfl := Option.some.inj hx
      refine fileKept_same ho (fun g hg => ?_) fun _ hb => nomatch hb
      rw [List.mem_singleton.mp hg]
      exact huser last rfl dev rfl
    | blockRead dev pos count =>
      obtain rfl := Option.some.inj hx
      refine fileKept_same ho (fun g hg => ?_) fun _ hb => nomatch hb
      rw [List.mem_singleton.mp hg]
      exact huser last rfl dev rfl
    | syncDev dev =>
      obtain rfl := Option.some.inj hx
      refine fileKept_same ho (fun g hg => ?_) fun _ hb => nomatch hb
      rcases List.mem_cons.mp hg with rfl | hg
      · exact asked_none rfl rfl
      · rw [List.mem_singleton.mp hg]
        trivial
    | cache ch => exact nomatch hx
  | write w =>
    obtain ⟨rfl, rfl⟩ := Prod.mk.inj (Option.some.inj h)
    exact blockWrite_kept ho hf
  | writeGot w chars => exact nomatch h
  | writeStore w chars bh =>
    obtain ⟨rfl, rfl⟩ := Prod.mk.inj (Option.some.inj h)
    exact blockWriteStore_kept ho hf.1 hf.2
  | read r =>
    obtain ⟨rfl, rfl⟩ := Prod.mk.inj (Option.some.inj h)
    exact blockRead_kept ho hf
  | readGot r chars => exact nomatch h
  | readCopy r chars bh =>
    obtain ⟨rfl, rfl⟩ := Prod.mk.inj (Option.some.inj h)
    refine fileKept_same ho (fun g hg => ?_) fun _ hb => nomatch hb
    rcases List.mem_cons.mp hg with rfl | hg
    · exact asked_none rfl rfl
    · rw [List.mem_singleton.mp hg]
      exact hf

end Run

/-! ## Steps -/

theorem accesses_inBounds {c : Cache Block} {file : BlockDev.Frame} {fch : BlockDev.Choice}
    (hf : FileAsked cfg c file)
    (huser : ∀ last, file = .user last → ∀ d, (Choice.file fch).inodeDev = some d → Served cfg d) :
    ∀ a ∈ accesses cfg c file fch, a.InBounds := by
  intro a ha
  unfold accesses at ha
  split at ha
  · rename_i last dev pos buf
    exact served_sizes (huser last rfl dev rfl) a ha
  · rename_i last dev pos count
    exact served_sizes (huser last rfl dev rfl) a ha
  · rename_i rw ahead bh
    split at ha
    · exact served_driver (hf.bufs bh (List.mem_singleton_self bh)) a ha
    · exact nomatch ha
  · exact nomatch ha

theorem execFile_kept {file : BlockDev.Frame} {fch : BlockDev.Choice} (hg : Good cfg s)
    (hf : FileAsked cfg s.cache file)
    (huser : ∀ last, file = .user last → ∀ d, (Choice.file fch).inodeDev = some d → Served cfg d)
    (h : execFile cfg beyond s file fch = some (s', nx)) : Kept cfg s s' nx := by
  unfold execFile at h
  split at h
  · rename_i hpermitted
    obtain ⟨⟨c₁, nx₁⟩, hx, heq⟩ := Option.map_eq_some_iff.mp h
    obtain ⟨rfl, rfl⟩ := Prod.mk.inj heq
    have hcode : ∀ held ch, file = .cache (.code held) → fch = .cache ch → ∀ d ∈ ch.devs, Served cfg d := by
      rintro held ch rfl rfl d hd
      have hall : ch.devs.all (· ∈ s.mounted) = true := hpermitted
      exact hg.mounted d (of_decide_eq_true (List.all_eq_true.mp hall d hd))
    have hkept := run_kept hg.owned hf hcode huser hx
    refine ⟨⟨hkept.owned, hg.mounted, fun a ha => ?_⟩, hkept.moves, fun g hm => ?_, fun b hb => ?_⟩
    · rcases List.mem_append.mp ha with ha | ha
      · exact hg.indexed a ha
      · exact accesses_inBounds hf huser a ha
    · rw [frames_map] at hm
      obtain ⟨g', hm', rfl⟩ := List.mem_map.mp hm
      exact hkept.frames g' hm'
    · exact hkept.value b (ret_of_map hb)
  · exact nomatch h

theorem execUser_kept {last : Option BlockDev.Result} (hg : Good cfg s)
    (hch : ∀ d, ch.inodeDev = some d → Served cfg d)
    (h : execUser cfg beyond s last ch = some (s', nx)) : Kept cfg s s' nx := by
  cases ch with
  | file fch =>
    have hf : FileAsked cfg s.cache (.user last) := trivial
    exact execFile_kept hg hf (fun _ _ => hch) h
  | iget dev =>
    obtain ⟨rfl, rfl⟩ := Prod.mk.inj (Option.some.inj h)
    refine ⟨⟨hg.owned, hg.mounted, fun a ha => ?_⟩, moves_of_eq rfl, ?_, fun _ hb => nomatch hb⟩
    · rcases List.mem_append.mp ha with ha | ha
      · exact hg.indexed a ha
      · exact served_sizes (hch dev rfl) a ha
    · exact fun g hm => List.mem_singleton.mp hm ▸ trivial
  | sysOpen dev =>
    obtain ⟨rfl, rfl⟩ := Prod.mk.inj (Option.some.inj h)
    exact kept_call hg trivial trivial
  | sysMount dev =>
    obtain ⟨rfl, rfl⟩ := Prod.mk.inj (Option.some.inj h)
    exact kept_call hg trivial (hch dev rfl)
  | wait => exact nomatch h
  | changed yes => exact nomatch h

theorem checkDiskChange_kept (hg : Good cfg s) (h : checkDiskChange s dev ch = some (s', nx)) :
    Kept cfg s s' nx := by
  unfold checkDiskChange at h
  split at h
  · split at h
    · obtain ⟨rfl, rfl⟩ := Prod.mk.inj (Option.some.inj h)
      exact kept_sleep hg trivial
    · exact nomatch h
  · split at h
    · obtain ⟨rfl, rfl⟩ := Prod.mk.inj (Option.some.inj h)
      exact kept_call hg trivial (asked_none rfl rfl)
    · obtain ⟨rfl, rfl⟩ := Prod.mk.inj (Option.some.inj h)
      exact kept_ret hg
  · exact nomatch h

theorem invalidateWait_kept {i : ℕ} (hg : Good cfg s) (h : invalidateWait s dev i = (s', nx)) :
    Kept cfg s s' nx := by
  unfold invalidateWait at h
  split at h
  · obtain ⟨rfl, rfl⟩ := Prod.mk.inj h
    exact kept_sleep hg trivial
  split at h
  · obtain ⟨rfl, rfl⟩ := Prod.mk.inj h
    obtain ⟨hd, ho⟩ : (s.cache.upd i fun b => { b with bUptodate := false, bDirt := false }).dev = s.cache.dev ∧
        Owned (Served cfg) (s.cache.upd i fun b => { b with bUptodate := false, bDirt := false }) :=
      owned_upd hg.owned (fun _ => rfl) fun _ hb => nomatch hb
    exact ⟨⟨ho, hg.mounted, hg.indexed⟩, moves_of_eq hd, fun g hm => List.mem_singleton.mp hm ▸ trivial,
      fun _ hb => nomatch hb⟩
  · obtain ⟨rfl, rfl⟩ := Prod.mk.inj h
    exact kept_goto hg trivial

theorem exec_kept (hg : Good cfg s) (hf : FrameAsked cfg s f) (hch : ∀ d, ch.inodeDev = some d → Served cfg d)
    (h : exec cfg beyond s ch f = some (s', nx)) : Kept cfg s s' nx := by
  cases f with
  | file file =>
    have hrest : ∀ fch, (∀ last, file ≠ .user last) → execFile cfg beyond s file fch = some (s', nx) →
        Kept cfg s s' nx := fun fch hne hx => execFile_kept hg hf (fun last heq => absurd heq (hne last)) hx
    cases file with
    | user last => exact execUser_kept hg hch h
    | _ =>
      cases ch with
      | file fch => exact hrest fch (fun _ heq => nomatch heq) h
      | _ => exact nomatch h
  | checkDiskChange dev => exact checkDiskChange_kept hg h
  | invalidateBuffers dev i =>
    have heq := Option.some.inj h
    unfold invalidateBuffers at heq
    split at heq
    · split at heq
      · obtain ⟨rfl, rfl⟩ := Prod.mk.inj heq
        exact kept_goto hg trivial
      · obtain ⟨rfl, rfl⟩ := Prod.mk.inj heq
        exact kept_goto hg trivial
    · obtain ⟨rfl, rfl⟩ := Prod.mk.inj heq
      exact kept_ret hg
  | invalidateWait dev i => exact invalidateWait_kept hg (Option.some.inj h)
  | readSuper dev =>
    simp only [exec] at h
    split at h
    · obtain ⟨rfl, rfl⟩ := Prod.mk.inj (Option.some.inj h)
      exact kept_ret hg
    · obtain ⟨rfl, rfl⟩ := Prod.mk.inj (Option.some.inj h)
      exact kept_call hg hf trivial
  | getSuper dev =>
    simp only [exec] at h
    split at h
    · obtain ⟨rfl, rfl⟩ := Prod.mk.inj (Option.some.inj h)
      exact kept_ret hg
    · obtain ⟨rfl, rfl⟩ := Prod.mk.inj (Option.some.inj h)
      exact kept_call hg hf ⟨fun _ hd => List.mem_singleton.mp hd ▸ hf, fun _ hb => nomatch hb⟩
  | superGot dev => exact nomatch h
  | superMaps dev bh =>
    obtain ⟨rfl, rfl⟩ := Prod.mk.inj (Option.some.inj h)
    refine ⟨⟨hg.owned, fun d hd => ?_, hg.indexed⟩, moves_of_eq rfl, fun g hm => ?_, fun _ hb => nomatch hb⟩
    · rcases List.mem_cons.mp hd with rfl | hd
      · exact hf.1
      · exact hg.mounted d hd
    · rcases List.mem_cons.mp hm with rfl | hm
      · exact ⟨fun _ hd => (nomatch hd), fun b hb => List.mem_singleton.mp hb ▸ hf.2⟩
      · rw [List.mem_singleton.mp hm]
        trivial
  | mountDone =>
    obtain ⟨rfl, rfl⟩ := Prod.mk.inj (Option.some.inj h)
    exact kept_ret hg

/-! ## Runs -/

section Runs

variable {n : ℕ} {special : Set Dev} {S S' : State n Sys Frame Panic} {a : Act n Choice (EndRequest Block)}

theorem holds_step (hi : Holds (Good cfg) (FrameAsked cfg) S)
    (ha : ∀ t ch, a = .run t ch → ∀ d, ch.inodeDev = some d → Served cfg d)
    (hs : (program cfg beyond n).step a S = some S') : Holds (Good cfg) (FrameAsked cfg) S' := by
  refine hi.step (fun s v => ∀ b, v = some b → Served cfg (s.cache.dev b)) hs ?_ ?_ ?_
  · intro t ch f fs s' nx hrun hst hx _
    have hf : FrameAsked cfg S.shared f := hi.frames t f (hst ▸ List.mem_cons_self)
    have hkept := exec_kept hi.shared hf (ha t ch hrun) hx
    refine ⟨hkept.good, fun g _ hg => hg.mono hkept.moves, hkept.frames, ?_⟩
    rintro v rfl b rfl
    exact hkept.value b rfl
  · exact fun s h v g hh hv hr => hh.resume hv hr
  · intro e s' _ hx
    obtain ⟨c, hc, rfl⟩ := Option.map_eq_some_iff.mp hx
    obtain ⟨hd, hdirt⟩ := endRequest_moves hc
    refine ⟨⟨fun b hb => ?_, hi.shared.mounted, hi.shared.indexed⟩, fun g hg => hg.mono (moves_of_eq hd)⟩
    rw [hd]
    rw [hdirt] at hb
    exact hi.shared.owned b hb

theorem holds_initial (kernel : Fin n → Bool) {root : Dev} (hroot : Served cfg root) (startBuffer bufferEnd : ℕ)
    (junk : Junk Block) (requestFn : ℕ → Bool) (disk : Dev → BlockNr → Block) :
    Holds (Good cfg) (FrameAsked cfg)
      (initial kernel root (bufferInit startBuffer bufferEnd junk requestFn disk)) := by
  refine ⟨⟨fun b hb => ?_, fun d hd => ?_, fun _ ha => nomatch ha⟩, fun t f hf => ?_⟩
  · have hblank := blank_bufferInit startBuffer bufferEnd junk requestFn disk b
    simp only [BufferHead.Blank, Prod.mk.injEq] at hblank
    exact absurd (hblank.2.2.1.symm.trans hb) Bool.false_ne_true
  · rw [List.mem_singleton.mp hd]
    exact hroot
  · dsimp only [initial] at hf
    split at hf
    · rw [List.mem_singleton.mp hf]
      exact asked_none rfl rfl
    · rw [List.mem_singleton.mp hf]
      trivial

theorem alwaysSafe_of_served (h : ∀ dev ∈ special, Served cfg dev) : AlwaysSafe cfg special := by
  intro n kernel startBuffer bufferEnd junk disk beyond root hroot S hrun
  have hholds : Holds (Good cfg) (FrameAsked cfg) S := by
    refine hrun.invariant (holds_initial kernel hroot startBuffer bufferEnd junk cfg.requestFn disk) ?_
    intro S a S' hi ha hs
    exact holds_step hi (fun t ch hact d hd => h d (ha t ch hact d hd)) hs
  exact hholds.shared.safe

end Runs

end Linux012.Special
