import Linux012.Fs.FileDev.Truncate

/-! # The zone allocator

Calls of `new_block` and `free_block` on a device in any order. Both find the bit of a zone by the same
arithmetic, which they write in opposite directions.
-/

namespace Linux012.FileDev.Allocator

open Function Runs
open Truncate (bitOf bitOf_inj clearBit bitSet_clearBit)

/-! ## The search for a zero bit -/

/-- The word at the byte `esi`, by its bits. -/
def lodsl (b : ℕ → Bool) (esi : ℕ) : ℕ → Bool := fun k => b (8 * esi + k)

def bsfl (eax : ℕ → Bool) : Option ℕ := (List.range 32).find? eax

/-- The loop of `find_first_zero` over `n` words. -/
def scanWords (b : ℕ → Bool) : ℕ → ℕ → ℕ → ℕ
  | 0, _, ecx => ecx
  | n + 1, esi, ecx =>
    match bsfl fun k => !lodsl b esi k with
    | some edx => ecx + edx
    | none => scanWords b n (esi + 4) (ecx + 32)

/-! ## Calls -/

/-- `free_block`. `busy` says that somebody else has a reference to the buffer of the block. -/
def freeBlock (fs : Fs) (busy : Bool) (block : ℕ) : Option (Fs × Bool) :=
  if block < fs.sFirstdatazone ∨ block ≥ fs.sNzones then none
  else if busy then some (fs, false)
  else
    let bit := block + 1 - fs.sFirstdatazone
    (fs.sZmap (bit / 8192)).map fun _ => (clearBit fs (bit / 8192) (bit % 8192), true)

/-- `out` are the blocks that `new_block` has returned and that have not been freed (not in the source). -/
structure State where
  fs : Fs
  out : List ℕ

/-- What is stored into a block by others, and what of it is lost, is left open. -/
inductive Act
  | new
  | free (block : ℕ) (busy : Bool)
  | store (block : ℕ) (d : Block)

def step : Act → State → Option State
  | .new, s =>
    let (fs, z) := newBlock s.fs
    some ⟨fs, if z = 0 then s.out else z :: s.out⟩
  | .free block busy, s =>
    (freeBlock s.fs busy block).map fun (fs, ok) =>
      ⟨fs, if ok then s.out.filter (· ≠ block) else s.out⟩
  | .store block d, s => some { s with fs := { s.fs with blocks := update s.fs.blocks block d } }

/-- A mounted device: the bits for no zone are set, and every zone has a bit. -/
structure Mounted (fs : Fs) : Prop where
  first : 1 ≤ fs.sFirstdatazone
  nzones : fs.sNzones ≤ 65536
  reserved : BitSet fs 0 0
  beyond : ∀ i j, i < 8 → j < 8192 → fs.sNzones ≤ j + i * 8192 + fs.sFirstdatazone - 1 →
    ∀ m, fs.sZmap i = some m → m j = true
  maps : ∀ w, fs.sFirstdatazone ≤ w → w < fs.sNzones → (fs.sZmap (bitOf fs w).1).isSome

/-- Zone `w` is free. -/
def Free (fs : Fs) (w : ℕ) : Prop := fs.sFirstdatazone ≤ w ∧ w < fs.sNzones ∧ ¬ Used fs w

/-- What the next call does in a state. -/
structure Sound (s : State) : Prop where
  new : ∀ fs' z, newBlock s.fs = (fs', z) → z ≠ 0 → Free s.fs z ∧ z ∉ s.out ∧ (fs'.blocks z = fun _ => 0) ∧
    ∀ i j, BitSet fs' i j ↔ BitSet s.fs i j ∨ (i, j) = bitOf s.fs z
  full : ∀ fs', newBlock s.fs = (fs', 0) → fs' = s.fs ∧ ∀ w, ¬ Free s.fs w
  free : ∀ fs' busy block, freeBlock s.fs busy block = some (fs', true) →
    ∀ i j, BitSet fs' i j ↔ BitSet s.fs i j ∧ (i, j) ≠ bitOf s.fs block
  busy : ∀ fs' busy block, freeBlock s.fs busy block = some (fs', false) → fs'.sZmap = s.fs.sZmap

variable {fs fs' : Fs} {s s' : State} {m b : ℕ → Bool} {i j k n w z : ℕ} {busy : Bool}

theorem findFirstZero_eq_find (m : ℕ → Bool) (n k : ℕ) :
    findFirstZero m n k = ((List.range n).find? fun i => !m (k + i)).map (k + ·) := by
  induction n generalizing k with
  | zero => rfl
  | succ n ih =>
    rw [findFirstZero, List.range_succ_eq_map, List.find?_cons, ih]
    cases hm : m k with
    | true => simp [List.find?_map, Function.comp_def, Nat.add_comm, Nat.add_left_comm]
    | false => simp

theorem findFirstZero_add (m : ℕ → Bool) (p q k : ℕ) :
    findFirstZero m (p + q) k = (findFirstZero m p k).or (findFirstZero m q (k + p)) := by
  induction p generalizing k with
  | zero => simp [findFirstZero]
  | succ p ih =>
    rw [Nat.succ_add, findFirstZero, findFirstZero]
    split_ifs
    · rw [ih, Nat.succ_add_eq_add_succ]
    · rfl

/-- The words are searched for the first zero bit. -/
theorem scanWords_eq (b : ℕ → Bool) (n c : ℕ) :
    scanWords b n (4 * c) (32 * c) = (findFirstZero b (32 * n) (32 * c)).getD (32 * (c + n)) := by
  induction n generalizing c with
  | zero => rfl
  | succ n ih =>
    have hword : findFirstZero b 32 (32 * c) = (bsfl fun k => !lodsl b (4 * c) k).map (32 * c + ·) := by
      rw [findFirstZero_eq_find, bsfl]
      simp only [lodsl, ← Nat.mul_assoc]
    rw [scanWords, show 32 * (n + 1) = 32 + 32 * n by omega, findFirstZero_add, hword]
    cases bsfl fun k => !lodsl b (4 * c) k with
    | some edx => rfl
    | none => exact (ih (c + 1)).trans (by rw [Nat.add_right_comm]; rfl)

theorem findFirstZero_words (b : ℕ → Bool) : scanWords b 256 0 0 = (findFirstZero b 8192 0).getD 8192 :=
  scanWords_eq b 256 0

/-! ## One call -/

theorem bitSet_iff (hm : fs.sZmap i = some m) : BitSet fs i j ↔ m j = true := by
  unfold BitSet
  rw [hm]
  simp

theorem bitSet_setBit_iff (hm : fs.sZmap i = some m) {i' j' : ℕ} :
    BitSet (setBit fs i j) i' j' ↔ BitSet fs i' j' ∨ (i', j') = (i, j) := by
  constructor
  · intro h
    exact (bitSet_setBit h).imp_right fun he => Prod.ext he.1 he.2
  · rintro (h | h)
    · exact setBit_mono h
    · obtain ⟨rfl, rfl⟩ := Prod.mk.inj h
      exact ⟨update m j' true, by simp [setBit, hm], update_self ..⟩

theorem scanZmap_lt {fuel : ℕ} (h : scanZmap fs fuel k = some (i, j)) : i < k + fuel := by
  induction fuel generalizing k with
  | zero => cases h
  | succ fuel ih =>
    rw [scanZmap] at h
    split at h
    · obtain ⟨rfl, -⟩ := Prod.mk.inj (Option.some.inj h)
      omega
    · have := ih h
      omega

theorem bitOf_eq (h : 1 ≤ fs.sFirstdatazone) (hj : j < 8192) (hpos : 1 ≤ j + i * 8192) :
    bitOf fs (j + i * 8192 + fs.sFirstdatazone - 1) = (i, j) := by
  refine Prod.ext ?_ ?_
  · change (j + i * 8192 + fs.sFirstdatazone - 1 + 1 - fs.sFirstdatazone) / 8192 = i
    omega
  · change (j + i * 8192 + fs.sFirstdatazone - 1 + 1 - fs.sFirstdatazone) % 8192 = j
    omega

/-- The bit that `new_block` finds is that of a zone. -/
theorem Mounted.found (h : Mounted fs) (hscan : scanZmap fs 8 0 = some (i, j)) :
    Free fs (j + i * 8192 + fs.sFirstdatazone - 1) ∧ bitOf fs (j + i * 8192 + fs.sFirstdatazone - 1) = (i, j) := by
  obtain ⟨m, hm, hclear, hj⟩ := scanZmap_spec hscan
  have hi : i < 8 := by
    have := scanZmap_lt hscan
    omega
  have hfirst := h.first
  have hpos : 1 ≤ j + i * 8192 := by
    by_contra hc
    obtain ⟨rfl, rfl⟩ : j = 0 ∧ i = 0 := by omega
    rw [(bitSet_iff hm).mp h.reserved] at hclear
    cases hclear
  have hbit := bitOf_eq hfirst hj hpos
  refine ⟨⟨by omega, ?_, ?_⟩, hbit⟩
  · by_contra hge
    rw [h.beyond i j hi hj (by omega) m hm] at hclear
    cases hclear
  · intro hu
    change BitSet fs (bitOf fs (j + i * 8192 + fs.sFirstdatazone - 1)).1 (bitOf fs _).2 at hu
    rw [hbit, bitSet_iff hm, hclear] at hu
    cases hu

theorem newBlock_of_none (h : scanZmap fs 8 0 = none) : newBlock fs = (fs, 0) := by
  unfold newBlock
  rw [h]

theorem Mounted.newBlock (h : Mounted fs) (hscan : scanZmap fs 8 0 = some (i, j)) :
    newBlock fs =
      ({ setBit fs i j with blocks := update fs.blocks (j + i * 8192 + fs.sFirstdatazone - 1) fun _ => 0 },
        j + i * 8192 + fs.sFirstdatazone - 1) := by
  have hlt := (h.found hscan).1.2.1
  unfold FileDev.newBlock
  rw [hscan]
  exact if_neg (Nat.not_le.mpr hlt)

/-- No zone is free when no zero bit is found. -/
theorem Mounted.full (h : Mounted fs) (hscan : scanZmap fs 8 0 = none) (w : ℕ) : ¬ Free fs w := by
  rintro ⟨hle, hlt, hfree⟩
  obtain ⟨m, hm⟩ := Option.isSome_iff_exists.mp (h.maps w hle hlt)
  have hnz := h.nzones
  have hidx : (bitOf fs w).1 < 0 + 8 := by
    change (w + 1 - fs.sFirstdatazone) / 8192 < 0 + 8
    have := h.first
    omega
  exact hfree ⟨m, hm, scanZmap_none hscan (Nat.zero_le _) hidx hm (Nat.mod_lt _ (by decide))⟩

/-- What keeps a device mounted: bits are cleared for zones only. -/
theorem Mounted.keep (h : Mounted fs) (hfirst : fs'.sFirstdatazone = fs.sFirstdatazone)
    (hnz : fs'.sNzones = fs.sNzones) (hmaps : ∀ i, (fs'.sZmap i).isSome = (fs.sZmap i).isSome)
    (hbits : ∀ i j, BitSet fs i j → BitSet fs' i j ∨ ∃ w, fs.sFirstdatazone ≤ w ∧ w < fs.sNzones ∧ (i, j) = bitOf fs w) :
    Mounted fs' where
  first := hfirst ▸ h.first
  nzones := hnz ▸ h.nzones
  reserved := by
    rcases hbits 0 0 h.reserved with hb | ⟨w, hle, -, hw⟩
    · exact hb
    · have := (Prod.mk.inj hw).1
      have := (Prod.mk.inj hw).2
      omega
  beyond i j hi hj hz m' hm' := by
    obtain ⟨m, hm⟩ := Option.isSome_iff_exists.mp ((hmaps i).symm.trans (by rw [hm']; rfl))
    rw [hfirst, hnz] at hz
    rcases hbits i j ((bitSet_iff hm).mpr (h.beyond i j hi hj hz m hm)) with hb | ⟨w, hle, hlt, hw⟩
    · exact (bitSet_iff hm').mp hb
    · have := (Prod.mk.inj hw).1
      have := (Prod.mk.inj hw).2
      omega
  maps w hle hlt := by
    rw [hmaps]
    have := h.maps w (hfirst ▸ hle) (hnz ▸ hlt)
    unfold bitOf at this ⊢
    rwa [hfirst]

theorem isSome_setBit (fs : Fs) (i j k : ℕ) : ((setBit fs i j).sZmap k).isSome = (fs.sZmap k).isSome := by
  unfold setBit
  dsimp only
  rcases eq_or_ne k i with rfl | hne
  · rw [update_self, Option.isSome_map]
  · rw [update_of_ne hne]

theorem isSome_clearBit (fs : Fs) (i j k : ℕ) : ((clearBit fs i j).sZmap k).isSome = (fs.sZmap k).isSome := by
  unfold clearBit
  dsimp only
  rcases eq_or_ne k i with rfl | hne
  · rw [update_self, Option.isSome_map]
  · rw [update_of_ne hne]

theorem freeBlock_cases {ok : Bool} (h : freeBlock fs busy w = some (fs', ok)) :
    (fs.sFirstdatazone ≤ w ∧ w < fs.sNzones) ∧
      (ok = false ∧ fs' = fs ∨ ok = true ∧ fs' = clearBit fs (bitOf fs w).1 (bitOf fs w).2) := by
  unfold freeBlock at h
  split_ifs at h with hr hb
  · obtain ⟨rfl, rfl⟩ := Prod.mk.inj (Option.some.inj h)
    exact ⟨by omega, .inl ⟨rfl, rfl⟩⟩
  · obtain ⟨-, -, he⟩ := Option.map_eq_some_iff.mp h
    obtain ⟨rfl, rfl⟩ := Prod.mk.inj he
    exact ⟨by omega, .inr ⟨rfl, rfl⟩⟩

/-- `truncate` calls this `free_block`. -/
theorem truncate_freeBlock (held : ℕ → ℕ → Bool) (block : ℕ) (s : Truncate.State) :
    (Truncate.freeBlock held block s).map (fun r => (r.1.fs, r.2)) = freeBlock s.fs (held s.calls block) block := by
  unfold Truncate.freeBlock freeBlock
  dsimp only
  split_ifs
  · rfl
  · rfl
  · rw [Option.map_map]
    refine congrFun (congrArg Option.map (funext fun b => ?_)) _
    dsimp only [comp_apply]
    split_ifs <;> rfl

/-! ## Runs -/

/-- The zones that are out are not free. -/
structure Inv (s : State) : Prop where
  mounted : Mounted s.fs
  out : ∀ w ∈ s.out, ¬ Free s.fs w

theorem Inv.sound (h : Inv s) : Sound s where
  new fs' z hnew hz := by
    cases hscan : scanZmap s.fs 8 0 with
    | none =>
      rw [newBlock_of_none hscan] at hnew
      exact absurd (Prod.mk.inj hnew).2.symm hz
    | some r =>
      obtain ⟨i, j⟩ := r
      obtain ⟨hfree, hbit⟩ := h.mounted.found hscan
      obtain ⟨m, hm, -⟩ := scanZmap_spec hscan
      rw [h.mounted.newBlock hscan] at hnew
      obtain ⟨rfl, rfl⟩ := Prod.mk.inj hnew
      refine ⟨hfree, fun hmem => h.out _ hmem hfree, update_self .., fun i' j' => ?_⟩
      rw [hbit]
      exact bitSet_setBit_iff hm
  full fs' hnew := by
    cases hscan : scanZmap s.fs 8 0 with
    | none =>
      rw [newBlock_of_none hscan] at hnew
      exact ⟨(Prod.mk.inj hnew).1.symm, h.mounted.full hscan⟩
    | some r =>
      obtain ⟨i, j⟩ := r
      obtain ⟨⟨hle, -, -⟩, -⟩ := h.mounted.found hscan
      rw [h.mounted.newBlock hscan] at hnew
      have := (Prod.mk.inj hnew).2
      have := h.mounted.first
      omega
  free fs' busy block hfree i j := by
    obtain ⟨-, ⟨hok, -⟩ | ⟨-, rfl⟩⟩ := freeBlock_cases hfree
    · cases hok
    · rw [bitSet_clearBit, ne_comm]
  busy fs' busy block hfree := by
    obtain ⟨-, ⟨-, rfl⟩ | ⟨hok, -⟩⟩ := freeBlock_cases hfree
    · rfl
    · cases hok

theorem inv_new (h : Inv s) (hs : step .new s = some s') : Inv s' := by
  change (match newBlock s.fs with
    | (fs, z) => some (⟨fs, if z = 0 then s.out else z :: s.out⟩ : State)) = some s' at hs
  cases hscan : scanZmap s.fs 8 0 with
  | none =>
    rw [newBlock_of_none hscan] at hs
    obtain rfl := Option.some.inj hs
    exact h
  | some r =>
    obtain ⟨i, j⟩ := r
    obtain ⟨hfree, hbit⟩ := h.mounted.found hscan
    obtain ⟨m, hm, -⟩ := scanZmap_spec hscan
    have hz : j + i * 8192 + s.fs.sFirstdatazone - 1 ≠ 0 := by
      have := hfree.1
      have := h.mounted.first
      omega
    rw [h.mounted.newBlock hscan] at hs
    dsimp only at hs
    rw [if_neg hz] at hs
    obtain rfl := Option.some.inj hs
    refine ⟨h.mounted.keep rfl rfl (isSome_setBit s.fs i j) fun _ _ hb => .inl (setBit_mono hb), fun w hw hfree' => ?_⟩
    obtain ⟨hle, hlt, hnot⟩ := hfree'
    rcases List.mem_cons.mp hw with rfl | hw
    · refine hnot ?_
      change BitSet (setBit s.fs i j) (bitOf s.fs (j + i * 8192 + s.fs.sFirstdatazone - 1)).1 (bitOf s.fs _).2
      rw [hbit]
      exact (bitSet_setBit_iff hm).mpr (.inr rfl)
    · exact h.out w hw ⟨hle, hlt, fun hu => hnot (setBit_mono hu)⟩

theorem inv_free (h : Inv s) (hs : step (.free w busy) s = some s') : Inv s' := by
  obtain ⟨⟨fs', ok⟩, hfree, rfl⟩ := Option.map_eq_some_iff.mp hs
  obtain ⟨⟨hle, hlt⟩, ⟨rfl, rfl⟩ | ⟨rfl, rfl⟩⟩ := freeBlock_cases hfree
  · exact h
  · refine ⟨h.mounted.keep rfl rfl (isSome_clearBit s.fs _ _) fun i j hb => ?_, fun w' hw' hfree' => ?_⟩
    · by_cases he : (i, j) = bitOf s.fs w
      · exact .inr ⟨w, hle, hlt, he⟩
      · exact .inl (bitSet_clearBit.mpr ⟨hb, Ne.symm he⟩)
    · obtain ⟨hmem, hne⟩ := List.mem_filter.mp hw'
      obtain ⟨hle', hlt', hnot⟩ := hfree'
      refine h.out w' hmem ⟨hle', hlt', fun hu => hnot (bitSet_clearBit.mpr ⟨hu, fun he => ?_⟩)⟩
      exact of_decide_eq_true hne (bitOf_inj hle' hle he.symm)

theorem inv_step {a : Act} (h : Inv s) (hs : step a s = some s') : Inv s' := by
  cases a with
  | new => exact inv_new h hs
  | free w busy => exact inv_free h hs
  | store w d =>
    obtain rfl := Option.some.inj hs
    exact ⟨⟨h.mounted.first, h.mounted.nzones, h.mounted.reserved, h.mounted.beyond, h.mounted.maps⟩, h.out⟩

/-- After any calls, `new_block` hands out a cleared zone that was free and is not out, and fails only when no
zone is free; `free_block` clears the bit that `new_block` sets, or no bit. -/
theorem zones_sound (h₀ : Mounted fs) (h : Run step Always ⟨fs, []⟩ s) : Sound s :=
  (h.invariant (I := Inv) ⟨h₀, nofun⟩ fun _ _ _ hi _ hs => inv_step hi hs).sound

/-- A device with the zones 10 to 13. -/
def fourZones : Fs where
  sNzones := 14
  sFirstdatazone := 10
  sZmap i := if i = 0 then some fun j => j = 0 ∨ 5 ≤ j else none
  blocks _ _ := 0xff

theorem fourZones_mounted : Mounted fourZones where
  first := by decide
  nzones := by decide
  reserved := ⟨fun j => j = 0 ∨ 5 ≤ j, rfl, rfl⟩
  beyond i j hi _ hz m hm := by
    rcases Nat.eq_zero_or_pos i with rfl | hpos
    · obtain rfl := Option.some.inj hm
      change 14 ≤ j + 0 * 8192 + 10 - 1 at hz
      exact decide_eq_true (.inr (by omega))
    · have hnone : fourZones.sZmap i = none := if_neg hpos.ne'
      rw [hnone] at hm
      cases hm
  maps w hle hlt := by
    change 10 ≤ w at hle
    change w < 14 at hlt
    have hz : (bitOf fourZones w).1 = 0 := by
      change (w + 1 - 10) / 8192 = 0
      omega
    rw [hz]
    rfl

theorem zones_sound_fourZones : Sound ((runList step [.new, .new, .free 10 true, .free 11 false, .new]
    ⟨fourZones, []⟩).get (by decide +kernel)) :=
  zones_sound fourZones_mounted (.of_runList (Option.some_get _).symm)

end Linux012.FileDev.Allocator
