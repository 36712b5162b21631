import KCoin.Wallet.Bech32

/-!
# One text for every address

The browser's codec is a bijection between byte arrays and the texts that it accepts. The encoder
writes the text of the format (`encodeBech32m_eq`). What the decoder accepts is the readable part, a
separator and digits whose regrouping cuts off zero bits only, with the one checksum that these
digits have; so it is what the encoder writes for the bytes that were decoded.
-/

open Digits

namespace KCoin.Wallet

/-! ## The encoder writes the format -/

theorem toNat_convertBits (bytes : List UInt8) :
    (convertBits bytes 8 5).map UInt32.toNat = regroup 8 5 (bytes.map UInt8.toNat) := by
  have htoNat : (bytes.map UInt8.toUInt32).map UInt32.toNat = bytes.map UInt8.toNat := by
    simp
  have hbytes : Bounded 8 ((bytes.map UInt8.toUInt32).map UInt32.toNat) := fun d hd => by
    rw [htoNat] at hd
    obtain ⟨b, -, rfl⟩ := List.mem_map.1 hd
    exact b.toNat_lt
  have hmask : MaskOf 5 := rfl
  have hafter := Regrouping.after_foldl hmask (by omega) (by omega) hbytes
  rw [htoNat] at hafter
  rw [convertBits, regroup_eq (by omega)]
  generalize (bytes.map UInt8.toUInt32).foldl (Regrouping.push 8 5) ⟨0, 0, []⟩ = s at hafter ⊢
  rw [← hafter.bits]
  split
  · rw [List.map_append, List.map_singleton, hafter.result, hafter.toNat_last hmask (by omega)
      (by omega)]
    rfl
  · rw [List.append_nil]
    exact hafter.result

theorem toNat_checksumDigit (n : UInt32) (index : Nat) :
    (n >>> UInt32.ofNat (5 * (5 - index)) &&& 31).toNat = n.toNat >>> (5 * (5 - index)) &&& 31 := by
  have hi : 5 * (5 - index) % 2 ^ 32 % 32 = 5 * (5 - index) := by omega
  rw [UInt32.toNat_and, UInt32.toNat_shiftRight, UInt32.toNat_ofNat', hi]
  rfl

/-- The browser writes the text of the format. -/
theorem encodeBech32m_eq {hrp : List Char} (hbmp : ∀ c ∈ hrp, c.val < 0x10000)
    (bytes : List UInt8) : encodeBech32m hrp bytes = Bech32.encodeBytes hrp bytes := by
  have hwords := toNat_convertBits bytes
  have hmod : (polymod (expandHrp hrp ++ convertBits bytes 8 5 ++ List.replicate 6 0) ^^^
      0x2bc830a3).toNat = Bech32.polymod (Bech32.hrpExpand hrp ++
        regroup 8 5 (bytes.map UInt8.toNat) ++ List.replicate 6 0) ^^^ Bech32.const := by
    rw [UInt32.toNat_xor, toNat_polymod, List.map_append, List.map_append, hwords,
      toNat_expandHrp hbmp]
    rfl
  have hcharset : charset = Bech32.charset := rfl
  rw [encodeBech32m, Bech32.encodeBytes, Bech32.encode, Bech32.checksum, ← hmod, ← hwords,
    Bech32.checksumDigits]
  rw [List.map_append, List.map_append, List.map_map, List.map_map, List.map_map]
  refine congrArg (hrp ++ '1' :: ·) (congrArg (_ ++ ·) (List.map_congr_left fun index _ => ?_))
  rw [Function.comp_apply, Function.comp_apply, ← toNat_checksumDigit]
  rfl

/-! ## What the decoder accepts -/

theorem splitLastOne_eq_some {value hrp data : List Char}
    (h : splitLastOne value = some (hrp, data)) : value = hrp ++ '1' :: data := by
  induction value generalizing hrp with
  | nil => cases h
  | cons c rest ih =>
      rw [splitLastOne] at h
      split at h
      · next hrp' data' hrest =>
          cases h
          rw [ih hrest]
          rfl
      · split at h
        · next hc =>
            cases h
            rw [hc]
            rfl
        · cases h

/-- The characters of digits that were read are those of the digits. -/
theorem mapM_characterValue_eq_ok {data : List Char} {values : List UInt32}
    (h : data.mapM characterValue = .ok values) : Bounded 5 (values.map UInt32.toNat) ∧
      data = (values.map UInt32.toNat).map Bech32.char := by
  induction data generalizing values with
  | nil =>
      obtain rfl := Except.pure_eq_ok.1 h
      exact ⟨nofun, rfl⟩
  | cons c data ih =>
      rw [List.mapM_cons] at h
      obtain ⟨v, hv, h⟩ := Except.bind_eq_ok.1 h
      obtain ⟨vs, hvs, h⟩ := Except.bind_eq_ok.1 h
      obtain rfl := Except.pure_eq_ok.1 h
      obtain ⟨hbounded, hdata⟩ := ih hvs
      unfold characterValue at hv
      split at hv
      · next hc =>
          obtain ⟨d, hlt, rfl⟩ := Bech32.exists_char hc
          obtain rfl := Except.ok.inj hv
          have htoNat : (UInt32.ofNat (charset.idxOf (Bech32.char d))).toNat = d := by
            have hidx : charset.idxOf (Bech32.char d) = d := Bech32.idxOf_char d hlt
            rw [hidx]
            exact UInt32.toNat_ofNat'.trans (Nat.mod_eq_of_lt (Nat.lt_trans hlt (by decide)))
          refine ⟨fun e he => ?_, ?_⟩
          · rcases List.mem_cons.1 he with rfl | he
            · rw [htoNat]
              exact hlt
            · exact hbounded e he
          · rw [List.map_cons, List.map_cons, htoNat, ← hdata]
      · cases hv

/-- Every character of the digits is one code unit. -/
theorem utf16Length_chars {ds : List Nat} (h : Bounded 5 ds) :
    utf16Length (ds.map Bech32.char) = ds.length := by
  induction ds with
  | nil => rfl
  | cons d ds ih =>
      have hd : d < 32 := h d List.mem_cons_self
      have ih := ih fun e he => h e (List.mem_cons_of_mem _ he)
      unfold utf16Length at ih ⊢
      rw [List.map_cons, List.map_cons, List.sum_cons, ih, if_pos (Bech32.char_val d hd),
        List.length_cons, Nat.add_comm]

/-- The words of the bytes are the words that were regrouped. -/
theorem regroup_of_convertWords {words : List UInt32} {bytes : List UInt8}
    (hwords : Bounded 5 (words.map UInt32.toNat)) (h : convertWords words 5 8 false = .ok bytes) :
    words.map UInt32.toNat = regroup 8 5 (bytes.map UInt8.toNat) := by
  have hmask : MaskOf 8 := rfl
  have hafter := Regrouping.after_foldl hmask (by omega) (by omega) hwords
  rw [convertWords_eq hwords] at h
  generalize words.foldl (Regrouping.push 5 8) ⟨0, 0, []⟩ = s at hafter h
  obtain ⟨_, hpadding, h⟩ := Except.bind_eq_ok.1 h
  obtain rfl := Except.pure_eq_ok.1 h
  obtain ⟨hleft, hlast⟩ := Except.ensure_eq_ok.1 hpadding
  have htruncate : (s.result.map UInt32.toUInt8).map UInt8.toNat =
      truncate 5 8 (words.map UInt32.toNat) := by
    rw [truncate, ← hafter.result, List.map_map]
    refine List.map_congr_left fun d hd => ?_
    have hlt : d.toNat < 2 ^ 8 := by
      have hmem : d.toNat ∈ s.result.map UInt32.toNat := List.mem_map_of_mem hd
      rw [hafter.result] at hmem
      exact bounded_digits _ _ _ _ hmem
    rw [Function.comp_apply, UInt32.toNat_toUInt8, Nat.mod_eq_of_lt hlt]
  have hzero : value 5 (words.map UInt32.toNat) % 2 ^ s.bits = 0 := by
    have hlast : (s.last 8).toNat = 0 := by rw [hlast]; rfl
    rw [hafter.toNat_last hmask (by omega) (by omega)] at hlast
    have hpow : (2 : Nat) ^ 8 = 2 ^ s.bits * 2 ^ (8 - s.bits) := by
      rw [← Nat.pow_add, Nat.add_sub_cancel' (by omega)]
    rw [hpow, Nat.mul_mod_mul_right] at hlast
    exact (Nat.mul_eq_zero.1 hlast).resolve_right (Nat.two_pow_pos _).ne'
  rw [htruncate]
  rw [hafter.bits] at hleft hzero
  exact (regroup_truncate hwords hleft hzero).symm

/-- A text that the decoder accepts is the text of the bytes it gives. -/
theorem eq_encodeBytes_of_decode {text hrp : List Char} {bytes : List UInt8}
    (hbmp : ∀ c ∈ hrp, c.val < 0x10000) (h : decodeBech32m text hrp = .ok bytes) :
    text = Bech32.encodeBytes hrp bytes := by
  obtain ⟨_, -, h⟩ := Except.bind_eq_ok.1 h
  obtain ⟨⟨hrp', data⟩, hsplit, h⟩ := Except.bind_eq_ok.1 h
  obtain ⟨_, hlength, h⟩ := Except.bind_eq_ok.1 h
  obtain ⟨_, hprefix, h⟩ := Except.bind_eq_ok.1 h
  obtain ⟨values, hvalues, h⟩ := Except.bind_eq_ok.1 h
  obtain ⟨_, hchecksum, hconvert⟩ := Except.bind_eq_ok.1 h
  obtain rfl := Except.ensure_eq_ok.1 hprefix
  obtain ⟨hbounded, rfl⟩ := mapM_characterValue_eq_ok hvalues
  have hsix := (Except.ensure_eq_ok.1 hlength).2
  rw [utf16Length_chars hbounded, List.length_map] at hsix
  -- the last six digits are the checksum of the others
  let words := values.take (values.length - 6)
  let check := values.drop (values.length - 6)
  have hparts : values.map UInt32.toNat = words.map UInt32.toNat ++ check.map UInt32.toNat := by
    rw [← List.map_append, List.take_append_drop]
  have hwords : words.map UInt32.toNat = regroup 8 5 (bytes.map UInt8.toNat) := by
    refine regroup_of_convertWords (fun d hd => hbounded d ?_) hconvert
    rw [hparts]
    exact List.mem_append_left _ hd
  have hcheck : check.map UInt32.toNat = Bech32.checksum hrp' (words.map UInt32.toNat) := by
    refine Bech32.eq_checksum ?_ (fun d hd => hbounded d ?_) ?_
    · rw [List.length_map, List.length_drop]
      omega
    · rw [hparts]
      exact List.mem_append_right _ hd
    · have hpolymod := congrArg UInt32.toNat (Except.ensure_eq_ok.1 hchecksum)
      rw [toNat_polymod, List.map_append, toNat_expandHrp hbmp, hparts, ← List.append_assoc]
        at hpolymod
      exact hpolymod
  rw [splitLastOne_eq_some (Except.okOr_eq_ok.1 hsplit), hparts, hcheck, hwords]
  rfl

/-- The decoder accepts exactly the texts that the encoder writes, each as the bytes it is the text
of. -/
theorem bech32m_bijection (text : List Char) (bytes : List UInt8) :
    decodeBech32m text "kcoin".toList = .ok bytes ↔ text = encodeBech32m "kcoin".toList bytes := by
  have hbmp : ∀ c ∈ "kcoin".toList, c.val < 0x10000 := by simp
  rw [encodeBech32m_eq hbmp]
  constructor
  · exact eq_encodeBytes_of_decode hbmp
  · rintro rfl
    exact decodeBech32m_kcoin bytes

end KCoin.Wallet
