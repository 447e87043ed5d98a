import Linux012.Fs.Exec.Basic

/-! # The tables of pointers

`create_tables` walks over the strings of the new stack and puts their addresses below them. The
tables are as asked when the counts are those of the strings: `createTables_spec`.
-/

namespace Linux012.Exec

open Function Terminated

variable {mem mem' : ℕ → UInt8} {a addr p sp argv : ℕ} {v : UInt32} {strs args env : List Str}

/-! ## Longs in memory -/

theorem putFsLong_of_lt (h : a < addr) : putFsLong mem v addr a = mem a := if_neg (by omega)

theorem putFsLong_of_ge (h : addr + 4 ≤ a) : putFsLong mem v addr a = mem a := if_neg (by omega)

theorem getLong_congr (h : ∀ x, addr ≤ x → x < addr + 4 → mem' x = mem x) :
    getLong mem' addr = getLong mem addr := by
  unfold getLong
  rw [h addr le_rfl (by omega), h (addr + 1) (by omega) (by omega), h (addr + 2) (by omega) (by omega),
    h (addr + 3) (by omega) (by omega)]

theorem getLong_putFsLong : getLong (putFsLong mem v addr) addr = v := by
  have hb : ∀ i < 4, (putFsLong mem v addr (addr + i)).toNat = v.toNat / 256 ^ i % 256 := by
    intro i hi
    unfold putFsLong
    rw [if_pos (by omega), Nat.add_sub_cancel_left]
    exact UInt8.toNat_ofNat'
  have hv := v.toNat_lt
  have hb0 := hb 0 (by omega)
  rw [Nat.add_zero] at hb0
  unfold getLong
  rw [hb0, hb 1 (by omega), hb 2 (by omega), hb 3 (by omega)]
  refine UInt32.toNat_inj.mp ?_
  rw [UInt32.toNat_ofNat']
  norm_num only
  omega

theorem getLong_putFsLong_of_disjoint {b : ℕ} (h : b + 4 ≤ addr ∨ addr + 4 ≤ b) :
    getLong (putFsLong mem v addr) b = getLong mem b := by
  refine getLong_congr fun x hx hx' => ?_
  rcases h with h | h
  · exact putFsLong_of_lt (by omega)
  · exact putFsLong_of_ge (by omega)

/-! ## One table -/

/-- Outside `[lo, hi)` nothing has changed. -/
def Within (lo hi : ℕ) (mem mem' : ℕ → UInt8) : Prop := ∀ x, x < lo ∨ hi ≤ x → mem' x = mem x

theorem Within.trans {lo hi lo' hi' : ℕ} {mem'' : ℕ → UInt8} (h : Within lo hi mem mem')
    (h' : Within lo' hi' mem' mem'') (hlo : lo ≤ lo') (hhi : hi' ≤ hi) : Within lo hi mem mem'' :=
  fun x hx => (h' x (by omega)).trans (h x hx)

theorem Within.mono {lo hi lo' hi' : ℕ} (h : Within lo' hi' mem mem') (hlo : lo ≤ lo') (hhi : hi' ≤ hi) :
    Within lo hi mem mem' := fun x hx => h x (by omega)

theorem within_put : Within addr (addr + 4) mem (putFsLong mem v addr) := fun x hx => by
  rcases hx with hx | hx
  · exact putFsLong_of_lt hx
  · exact putFsLong_of_ge hx

theorem Within.getLong {lo hi b : ℕ} (h : Within lo hi mem mem') (hb : b + 4 ≤ lo ∨ hi ≤ b) :
    getLong mem' b = Exec.getLong mem b := getLong_congr fun x _ _ => h x (by omega)

theorem Within.holds {lo hi : ℕ} {l : List UInt8} (h : Within lo hi mem mem') (hp : hi ≤ p)
    (hl : Holds mem p l) : Holds mem' p l := hl.congr fun x _ _ => h x (by omega)

/-- The entries of a table are the addresses of the strings, which lie behind it. -/
theorem fillTable_spec (hl : Holds mem p (enc strs)) (hargv : argv + 4 * strs.length ≤ p)
    (hp : p + (enc strs).length ≤ TASK_SIZE) :
    ∃ mem', fillTable strs.length argv p mem =
        .ok (argv + 4 * strs.length, p + (enc strs).length, mem') ∧
      Within argv (argv + 4 * strs.length) mem mem' ∧
      ∀ i < strs.length, getLong mem' (argv + 4 * i) = UInt32.ofNat (p + (enc (strs.take i)).length) := by
  induction strs generalizing argv p mem with
  | nil => exact ⟨mem, rfl, fun _ _ => rfl, fun i hi => absurd hi (Nat.not_lt_zero i)⟩
  | cons str strs ih =>
    rw [List.length_cons] at hargv
    rw [enc_cons, List.length_append] at hp
    rw [enc_cons, holds_append] at hl
    have hcode := str.length_code
    have hput : Within argv (argv + 4) mem (putFsLong mem (UInt32.ofNat p) argv) := within_put
    have hskip : skip 0 (putFsLong mem (UInt32.ofNat p) argv) (TASK_SIZE - p) p =
        some (p + str.code.length) :=
      skip_code (hput.holds (by omega) hl.1) (by omega)
    obtain ⟨mem', hok, hin, hget⟩ := @ih _ (p + str.code.length) (argv + 4)
      (hput.holds (by omega) hl.2) (by omega) (by omega)
    refine ⟨mem', ?_, ?_, fun i hi => ?_⟩
    · rw [List.length_cons, fillTable, hskip]
      dsimp only
      rw [hok, enc_cons, List.length_append]
      congr 2
      · omega
      · congr 1
        omega
    · rw [List.length_cons]
      exact (hput.mono le_rfl (by omega)).trans hin (by omega) (by omega)
    · cases i with
      | zero =>
        rw [hin.getLong (.inl (by omega))]
        exact getLong_putFsLong
      | succ i =>
        rw [List.take_succ_cons, enc_cons, List.length_append, ← Nat.add_assoc, ← hget i (by simpa using hi)]
        congr 1
        omega

/-! ## The stack -/

/-- At an address is a vector of pointers to the strings, which ends in NULL. -/
structure Points (mem : ℕ → UInt8) (addr : ℕ) (strs : List Str) : Prop where
  str : ∀ i (h : i < strs.length), Holds mem (getLong mem (addr + 4 * i)).toNat strs[i].code
  null : getLong mem (addr + 4 * strs.length) = 0

/-- The stack that a program finds: the number of its arguments and the two vectors -/
structure Arranged (mem : ℕ → UInt8) (sp : ℕ) (args env : List Str) : Prop where
  argc : (getLong mem sp).toNat = args.length
  argv : Points mem (getLong mem (sp + 4)).toNat args
  envp : Points mem (getLong mem (sp + 8)).toNat env

theorem take_enc (h : Holds mem p (enc strs)) {i : ℕ} (hi : i < strs.length) :
    Holds mem (p + (enc (strs.take i)).length) strs[i].code := by
  have hsplit : strs = strs.take i ++ strs[i] :: strs.drop (i + 1) := by
    rw [List.getElem_cons_drop, List.take_append_drop]
  rw [hsplit, enc_append, holds_append, enc_cons, holds_append] at h
  exact h.2.1

theorem length_enc_take_le (strs : List Str) (i : ℕ) : (enc (strs.take i)).length ≤ (enc strs).length := by
  conv_rhs => rw [← List.take_append_drop i strs]
  rw [enc_append, List.length_append]
  exact Nat.le_add_right _ _

theorem points_of_table (hl : Holds mem p (enc strs)) (hp : p + (enc strs).length ≤ TASK_SIZE)
    (hget : ∀ i < strs.length, getLong mem (argv + 4 * i) = UInt32.ofNat (p + (enc (strs.take i)).length))
    (hnull : getLong mem (argv + 4 * strs.length) = 0) : Points mem argv strs := by
  refine ⟨fun i hi => ?_, hnull⟩
  have hle := length_enc_take_le strs i
  rw [hget i hi, UInt32.toNat_ofNat_of_lt' (by unfold TASK_SIZE UInt32.size at *; omega)]
  exact take_enc hl hi

/-- The counts are at most those of the strings that are there: the walk ends, and the stack has
the first strings as arguments and the next as environment. -/
theorem createTables_spec (hl : Holds mem p (enc (args ++ env)))
    (hp : p + (enc (args ++ env)).length ≤ TASK_SIZE) (hroom : 4 * (args.length + env.length + 6) ≤ p) :
    ∃ sp mem', createTables p args.length env.length mem = .ok (sp, mem') ∧ Arranged mem' sp args env := by
  unfold createTables
  have hT : TASK_SIZE < UInt32.size := by decide
  rw [enc_append, List.length_append] at hp
  rw [enc_append, holds_append] at hl
  obtain ⟨e, he⟩ : ∃ e, e = p / 4 * 4 - 4 * (env.length + 1) := ⟨_, rfl⟩
  obtain ⟨g, hg⟩ : ∃ g, g = e - 4 * (args.length + 1) := ⟨_, rfl⟩
  dsimp only [bind, Except.bind]
  rw [← he, ← hg]
  have hge : g + 4 * args.length + 4 = e := by omega
  have hep : e + 4 * env.length + 4 ≤ p := by omega
  have h12 : 12 ≤ g := by omega
  -- the three longs at the bottom
  generalize hm₁ : putFsLong mem (UInt32.ofNat e) (g - 4) = mem₁
  generalize hm₂ : putFsLong mem₁ (UInt32.ofNat g) (g - 8) = mem₂
  generalize hm₃ : putFsLong mem₂ (UInt32.ofNat args.length) (g - 12) = mem₃
  have hw₁ : Within (g - 4) (g - 4 + 4) mem mem₁ := hm₁ ▸ within_put
  have hw₂ : Within (g - 8) (g - 8 + 4) mem₁ mem₂ := hm₂ ▸ within_put
  have hw₃ : Within (g - 12) (g - 12 + 4) mem₂ mem₃ := hm₃ ▸ within_put
  have hhead : Within (g - 12) g mem mem₃ :=
    ((hw₁.mono (by omega) (by omega)).trans hw₂ (by omega) (by omega)).trans hw₃ (by omega) (by omega)
  -- the table of the arguments
  obtain ⟨mem₄, hok₄, hw₄, hget₄⟩ := @fillTable_spec _ _ g _ (hhead.holds (by omega) hl.1)
    (by omega) (by omega)
  rw [hok₄]
  dsimp only
  generalize hm₅ : putFsLong mem₄ 0 (g + 4 * args.length) = mem₅
  have hw₅ : Within (g + 4 * args.length) (g + 4 * args.length + 4) mem₄ mem₅ := hm₅ ▸ within_put
  have hargs : Within (g - 12) e mem mem₅ :=
    ((hhead.mono le_rfl (by omega)).trans hw₄ (by omega) (by omega)).trans hw₅ (by omega) (by omega)
  -- the table of the environment
  obtain ⟨mem₆, hok₆, hw₆, hget₆⟩ := @fillTable_spec _ _ e _ (hargs.holds (by omega) hl.2)
    (by omega) (by omega)
  rw [hok₆]
  dsimp only
  generalize hm₇ : putFsLong mem₆ 0 (e + 4 * env.length) = mem₇
  have hw₇ : Within (e + 4 * env.length) (e + 4 * env.length + 4) mem₆ mem₇ := hm₇ ▸ within_put
  have htail : Within e p mem₅ mem₇ :=
    (hw₆.mono le_rfl (by omega)).trans hw₇ (by omega) (by omega)
  refine ⟨_, _, rfl, ?_⟩
  have hall : Within (g - 12) p mem mem₇ := (hargs.mono le_rfl (by omega)).trans htail (by omega) le_rfl
  have hat8 : getLong mem₇ (g - 12 + 8) = UInt32.ofNat e := by
    rw [show g - 12 + 8 = g - 4 by omega, htail.getLong (.inl (by omega)), hw₅.getLong (.inl (by omega)),
      hw₄.getLong (.inl (by omega)), hw₃.getLong (.inr (by omega)), hw₂.getLong (.inr (by omega)), ← hm₁,
      getLong_putFsLong]
  have hat4 : getLong mem₇ (g - 12 + 4) = UInt32.ofNat g := by
    rw [show g - 12 + 4 = g - 8 by omega, htail.getLong (.inl (by omega)), hw₅.getLong (.inl (by omega)),
      hw₄.getLong (.inl (by omega)), hw₃.getLong (.inr (by omega)), ← hm₂, getLong_putFsLong]
  have hat0 : getLong mem₇ (g - 12) = UInt32.ofNat args.length := by
    rw [htail.getLong (.inl (by omega)), hw₅.getLong (.inl (by omega)), hw₄.getLong (.inl (by omega)),
      ← hm₃, getLong_putFsLong]
  refine ⟨?_, ?_, ?_⟩
  · rw [hat0]
    exact UInt32.toNat_ofNat_of_lt' (by omega)
  · rw [hat4, UInt32.toNat_ofNat_of_lt' (by omega)]
    refine points_of_table (hall.holds le_rfl hl.1) (by omega) (fun i hi => ?_) ?_
    · rw [htail.getLong (.inl (by omega)), hw₅.getLong (.inl (by omega))]
      exact hget₄ i hi
    · rw [htail.getLong (.inl (by omega)), ← hm₅, getLong_putFsLong]
  · rw [hat8, UInt32.toNat_ofNat_of_lt' (by omega)]
    refine points_of_table (hall.holds (by omega) hl.2) (by omega) (fun i hi => ?_) ?_
    · rw [hw₇.getLong (.inl (by omega))]
      exact hget₆ i hi
    · rw [← hm₇, getLong_putFsLong]

end Linux012.Exec
