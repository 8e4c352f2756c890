import Mathlib.Data.List.Basic
import Mathlib.Tactic.Common

/-!
# Unicode.SendString

`send_unicode_string` of `unicode.c` and `decode_utf8` of `utf8.c`, over a memory of bytes (`char` is unsigned).

* `sendUnicodeString`: what is given to `register_unicode`, which addresses are read, and where it stops.
* `Whole`: the string divides into sequences that are as long as their first bytes say.
* `send_unicode_string_iff`: it stops at the end exactly for these, and the encoding of any code points is one.
-/

namespace VialQmk
namespace Unicode

structure Decoded where
  codePoint : Int
  next : Nat
  reads : List Nat

def decodeSequence (mem : Nat → UInt8) (str : Nat) : Decoded :=
  let byte (i : Nat) : Nat := (mem (str + i)).toNat
  if byte 0 < 0x80 then
    { codePoint := byte 0
      next := str + 1
      reads := [str] }
  else if byte 0 &&& 0xE0 = 0xC0 then
    { codePoint := (((byte 0 &&& 0x1F) <<< 6) ||| ((byte 1 &&& 0x3F) <<< 0) : Nat)
      next := str + 2
      reads := [str, str + 1] }
  else if byte 0 &&& 0xF0 = 0xE0 then
    { codePoint := (((byte 0 &&& 0x0F) <<< 12) ||| ((byte 1 &&& 0x3F) <<< 6) ||| ((byte 2 &&& 0x3F) <<< 0) : Nat)
      next := str + 3
      reads := [str, str + 1, str + 2] }
  else if byte 0 &&& 0xF8 = 0xF0 ∧ byte 0 ≤ 0xF4 then
    { codePoint := (((byte 0 &&& 0x07) <<< 18) ||| ((byte 1 &&& 0x3F) <<< 12) ||| ((byte 2 &&& 0x3F) <<< 6) |||
        ((byte 3 &&& 0x3F) <<< 0) : Nat)
      next := str + 4
      reads := [str, str + 1, str + 2, str + 3] }
  else
    { codePoint := -1
      next := str + 1
      reads := [str] }

def decodeUtf8 (mem : Nat → UInt8) (str : Nat) : Decoded :=
  let decoded := decodeSequence mem str
  if 0xD800 ≤ decoded.codePoint ∧ decoded.codePoint ≤ 0xDFFF then { decoded with codePoint := -1 } else decoded

structure Sent where
  registered : List Nat
  reads : List Nat
  stop : Nat

def sendUnicodeString (mem : Nat → UInt8) : Nat → Nat → Option Sent
  | 0, _ => none
  | fuel + 1, str =>
    if mem str = 0 then some ⟨[], [str], str⟩
    else
      let decoded := decodeUtf8 mem str
      (sendUnicodeString mem fuel decoded.next).map fun sent =>
        { registered := (if 0 ≤ decoded.codePoint then [decoded.codePoint.toNat] else []) ++ sent.registered
          reads := str :: decoded.reads ++ sent.reads
          stop := sent.stop }

/-- The bytes are at the address, and the terminator is behind them. -/
def StringAt (mem : Nat → UInt8) : Nat → List UInt8 → Prop
  | str, [] => mem str = 0
  | str, b :: bytes => mem str = b ∧ b ≠ 0 ∧ StringAt mem (str + 1) bytes

def leadLength (b : UInt8) : Nat :=
  if b.toNat < 0x80 then 1
  else if b.toNat &&& 0xE0 = 0xC0 then 2
  else if b.toNat &&& 0xF0 = 0xE0 then 3
  else if b.toNat &&& 0xF8 = 0xF0 ∧ b.toNat ≤ 0xF4 then 4
  else 1

inductive Whole : List UInt8 → Prop where
  | nil : Whole []
  | cons (b : UInt8) (tail rest : List UInt8) :
      tail.length + 1 = leadLength b → Whole rest → Whole (b :: (tail ++ rest))

/-- The loop ends at the terminator, and nothing behind it is read. -/
def StopsAtEnd (mem : Nat → UInt8) (str : Nat) (bytes : List UInt8) : Prop :=
  ∃ fuel sent, sendUnicodeString mem fuel str = some sent ∧ sent.stop = str + bytes.length ∧
    ∀ a ∈ sent.reads, a ≤ str + bytes.length

theorem leadLength_pos (b : UInt8) : 0 < leadLength b := by
  rw [leadLength]
  repeat' split
  all_goals decide

variable {mem : Nat → UInt8}

theorem StringAt.drop {bytes : List UInt8} : ∀ {str n : Nat}, StringAt mem str bytes → n ≤ bytes.length →
    StringAt mem (str + n) (bytes.drop n) := by
  induction bytes with
  | nil =>
    intro str n h hn
    rw [Nat.le_zero.mp hn]
    exact h
  | cons b bytes ih =>
    intro str n h hn
    cases n with
    | zero => exact h
    | succ n =>
      have hrest := ih h.2.2 (Nat.le_of_succ_le_succ hn)
      rwa [Nat.add_assoc, Nat.add_comm 1] at hrest

theorem decodeUtf8_next (mem : Nat → UInt8) (str : Nat) : (decodeUtf8 mem str).next = str + leadLength (mem str) := by
  rw [decodeUtf8, decodeSequence, leadLength]
  simp only [Nat.add_zero, apply_ite Decoded.next, ite_self]
  repeat' split
  all_goals rfl

theorem decodeUtf8_reads (mem : Nat → UInt8) (str : Nat) :
    (decodeUtf8 mem str).reads = (List.range (leadLength (mem str))).map (str + ·) := by
  rw [decodeUtf8, decodeSequence, leadLength]
  simp only [Nat.add_zero, apply_ite Decoded.reads, ite_self]
  repeat' split
  all_goals rfl

variable {str : Nat}

theorem mem_decodeUtf8_reads {a : Nat} :
    a ∈ (decodeUtf8 mem str).reads ↔ str ≤ a ∧ a < (decodeUtf8 mem str).next := by
  rw [decodeUtf8_reads, decodeUtf8_next, List.mem_map]
  constructor
  · rintro ⟨n, hn, rfl⟩
    have := List.mem_range.mp hn
    omega
  · rintro ⟨hle, hlt⟩
    exact ⟨a - str, List.mem_range.mpr (by omega), by omega⟩

theorem tail_mask : ∀ y < 64, (y + 0x80) &&& 0x3F = y := by decide

theorem lead_two : ∀ x < 32, ¬ x + 0xC0 < 0x80 ∧ (x + 0xC0) &&& 0xE0 = 0xC0 ∧ (x + 0xC0) &&& 0x1F = x := by decide

theorem lead_three : ∀ x < 16, ¬ x + 0xE0 < 0x80 ∧ (x + 0xE0) &&& 0xE0 ≠ 0xC0 ∧ (x + 0xE0) &&& 0xF0 = 0xE0 ∧
    (x + 0xE0) &&& 0x0F = x := by decide

theorem lead_four : ∀ x < 5, ¬ x + 0xF0 < 0x80 ∧ (x + 0xF0) &&& 0xE0 ≠ 0xC0 ∧ (x + 0xF0) &&& 0xF0 ≠ 0xE0 ∧
    (x + 0xF0) &&& 0xF8 = 0xF0 ∧ (x + 0xF0) &&& 0x07 = x := by decide

theorem shiftLeft_or_shiftLeft {x y i j : Nat} (hy : y < 64) (hj : j = 6 + i) :
    x <<< j ||| y <<< i = (x * 64 + y) <<< i := by
  have hlt : y <<< i < 2 ^ j := by
    rw [Nat.shiftLeft_eq, hj, Nat.pow_add]
    exact Nat.mul_lt_mul_of_pos_right hy (Nat.two_pow_pos i)
  rw [← Nat.shiftLeft_add_eq_or_of_lt hlt, Nat.shiftLeft_eq, Nat.shiftLeft_eq, Nat.shiftLeft_eq, hj, Nat.pow_add,
    Nat.add_mul, Nat.mul_assoc]

theorem codePoint_valid (c : Char) : c.val.toNat < 0xD800 ∨ 0xDFFF < c.val.toNat ∧ c.val.toNat < 0x110000 := c.valid

theorem toNat_ofNat_of_lt {n : Nat} (h : n < 256) : (UInt8.ofNat n).toNat = n := by
  rw [UInt8.toNat_ofNat', Nat.mod_eq_of_lt h]

theorem decodeSequence_encode {c : Char} {rest : List UInt8} (h : StringAt mem str (String.utf8EncodeChar c ++ rest)) :
    (decodeSequence mem str).codePoint = c.val.toNat ∧ leadLength (mem str) = (String.utf8EncodeChar c).length := by
  have hvalid := codePoint_valid c
  rw [String.utf8EncodeChar] at h ⊢
  generalize c.val.toNat = v at *
  have hlow : v % 0x40 < 64 := Nat.mod_lt v (by decide)
  have hmiddle : v / 64 % 0x40 < 64 := Nat.mod_lt _ (by decide)
  have hhigh : v / 4096 % 0x40 < 64 := Nat.mod_lt _ (by decide)
  rw [decodeSequence, leadLength]
  simp only [Nat.add_zero]
  by_cases hone : v ≤ 0x7f
  · rw [if_pos hone] at h ⊢
    have hfirst : (mem str).toNat = v := by rw [h.1, toNat_ofNat_of_lt (by omega)]
    rw [hfirst, if_pos (by omega), if_pos (by omega)]
    exact ⟨rfl, rfl⟩
  rw [if_neg hone] at h ⊢
  by_cases htwo : v ≤ 0x7ff
  · rw [if_pos htwo] at h ⊢
    obtain ⟨hlt, hlead, hx⟩ := lead_two (v / 64 % 0x20) (Nat.mod_lt _ (by decide))
    have hfirst : (mem str).toNat = v / 64 % 0x20 + 0xC0 := by rw [h.1, toNat_ofNat_of_lt (by omega)]
    have hsecond : (mem (str + 1)).toNat = v % 0x40 + 0x80 := by rw [h.2.2.1, toNat_ofNat_of_lt (by omega)]
    rw [hfirst, hsecond, if_neg hlt, if_neg hlt, if_pos hlead, if_pos hlead, hx, tail_mask _ hlow,
      shiftLeft_or_shiftLeft (i := 0) (j := 6) hlow rfl]
    exact ⟨congrArg Int.ofNat (show _ = v by omega), rfl⟩
  rw [if_neg htwo] at h ⊢
  by_cases hthree : v ≤ 0xffff
  · rw [if_pos hthree] at h ⊢
    obtain ⟨hlt, hlead, hlead', hx⟩ := lead_three (v / 4096 % 0x10) (Nat.mod_lt _ (by decide))
    have hfirst : (mem str).toNat = v / 4096 % 0x10 + 0xE0 := by rw [h.1, toNat_ofNat_of_lt (by omega)]
    have hsecond : (mem (str + 1)).toNat = v / 64 % 0x40 + 0x80 := by rw [h.2.2.1, toNat_ofNat_of_lt (by omega)]
    have hthird : (mem (str + 2)).toNat = v % 0x40 + 0x80 := by rw [h.2.2.2.2.1, toNat_ofNat_of_lt (by omega)]
    rw [hfirst, hsecond, hthird, if_neg hlt, if_neg hlt, if_neg hlead, if_neg hlead, if_pos hlead', if_pos hlead', hx,
      tail_mask _ hlow, tail_mask _ hmiddle, shiftLeft_or_shiftLeft (i := 6) (j := 12) hmiddle rfl,
      shiftLeft_or_shiftLeft (i := 0) (j := 6) hlow rfl]
    exact ⟨congrArg Int.ofNat (show _ = v by omega), rfl⟩
  · rw [if_neg hthree] at h ⊢
    have hdigit : v / 262144 % 0x08 = v / 262144 := Nat.mod_eq_of_lt (by omega)
    obtain ⟨hlt, hlead, hlead', hlead'', hx⟩ := lead_four (v / 262144) (by omega)
    have hfirst : (mem str).toNat = v / 262144 + 0xF0 := by rw [h.1, hdigit, toNat_ofNat_of_lt (by omega)]
    have hsecond : (mem (str + 1)).toNat = v / 4096 % 0x40 + 0x80 := by rw [h.2.2.1, toNat_ofNat_of_lt (by omega)]
    have hthird : (mem (str + 2)).toNat = v / 64 % 0x40 + 0x80 := by rw [h.2.2.2.2.1, toNat_ofNat_of_lt (by omega)]
    have hfourth : (mem (str + 3)).toNat = v % 0x40 + 0x80 := by rw [h.2.2.2.2.2.2.1, toNat_ofNat_of_lt (by omega)]
    rw [hfirst, hsecond, hthird, hfourth, if_neg hlt, if_neg hlt, if_neg hlead, if_neg hlead, if_neg hlead',
      if_neg hlead', if_pos ⟨hlead'', by omega⟩, if_pos ⟨hlead'', by omega⟩, hx, tail_mask _ hlow, tail_mask _ hmiddle,
      tail_mask _ hhigh, shiftLeft_or_shiftLeft (i := 12) (j := 18) hhigh rfl,
      shiftLeft_or_shiftLeft (i := 6) (j := 12) hmiddle rfl, shiftLeft_or_shiftLeft (i := 0) (j := 6) hlow rfl]
    exact ⟨congrArg Int.ofNat (show _ = v by omega), rfl⟩

theorem decodeUtf8_encode {c : Char} {rest : List UInt8} (h : StringAt mem str (String.utf8EncodeChar c ++ rest)) :
    (decodeUtf8 mem str).codePoint = c.val.toNat := by
  have hvalid := codePoint_valid c
  rw [decodeUtf8]
  simp only [(decodeSequence_encode h).1]
  rw [if_neg (by omega)]
  exact (decodeSequence_encode h).1

theorem sendUnicodeString_succ {fuel : Nat} (h : mem str ≠ 0) : sendUnicodeString mem (fuel + 1) str =
    (sendUnicodeString mem fuel (decodeUtf8 mem str).next).map fun sent =>
      { registered := (if 0 ≤ (decodeUtf8 mem str).codePoint then [(decodeUtf8 mem str).codePoint.toNat] else []) ++
          sent.registered
        reads := str :: (decodeUtf8 mem str).reads ++ sent.reads
        stop := sent.stop } := by
  rw [sendUnicodeString, if_neg h]

theorem sendUnicodeString_end (fuel : Nat) (h : mem str = 0) :
    sendUnicodeString mem (fuel + 1) str = some ⟨[], [str], str⟩ := by
  rw [sendUnicodeString, if_pos h]

/-- A sequence that ends in front of the terminator is passed over, and the rest of the string follows. -/
theorem StringAt.next {b : UInt8} {tail rest : List UInt8} {str : Nat} (h : StringAt mem str (b :: (tail ++ rest)))
    (hlen : tail.length + 1 = leadLength b) :
    (decodeUtf8 mem str).next = str + (tail.length + 1) ∧ StringAt mem (decodeUtf8 mem str).next rest := by
  have hnext : (decodeUtf8 mem str).next = str + (tail.length + 1) := by rw [decodeUtf8_next, h.1, hlen]
  have hdrop := h.drop (n := tail.length + 1) (by rw [List.length_cons, List.length_append]; omega)
  rw [List.drop_succ_cons, List.drop_left] at hdrop
  exact ⟨hnext, hnext ▸ hdrop⟩

theorem stopsAtEnd_of_whole {bytes : List UInt8} (hwhole : Whole bytes) :
    ∀ {str : Nat}, StringAt mem str bytes → StopsAtEnd mem str bytes := by
  induction hwhole with
  | nil =>
    intro str h
    refine ⟨1, _, sendUnicodeString_end 0 h, rfl, fun a ha => ?_⟩
    rw [List.mem_singleton.mp ha]
    exact Nat.le_add_right _ _
  | cons b tail rest hlen _ ih =>
    intro str h
    obtain ⟨hnext, hrest⟩ := h.next hlen
    obtain ⟨fuel, sent, hrun, hstop, hreads⟩ := ih hrest
    have hlength : (b :: (tail ++ rest)).length = tail.length + 1 + rest.length := by
      rw [List.length_cons, List.length_append]
      omega
    refine ⟨fuel + 1, _, by rw [sendUnicodeString_succ (h.1 ▸ h.2.1), hrun]; rfl, ?_, fun a ha => ?_⟩
    · rw [hstop, hnext, hlength, Nat.add_assoc]
    · rw [hlength]
      rcases List.mem_append.mp ha with ha | ha
      · rcases List.mem_cons.mp ha with rfl | ha
        · exact Nat.le_add_right _ _
        · have := (mem_decodeUtf8_reads.mp ha).2
          omega
      · have := hreads a ha
        omega

theorem sendUnicodeString_reads_first {fuel : Nat} {sent : Sent} (h : sendUnicodeString mem fuel str = some sent) :
    str ∈ sent.reads := by
  cases fuel with
  | zero => exact nomatch h
  | succ fuel =>
    by_cases hend : mem str = 0
    · rw [sendUnicodeString_end fuel hend] at h
      cases h
      exact List.mem_singleton_self str
    · rw [sendUnicodeString_succ hend] at h
      obtain ⟨sent', -, rfl⟩ := Option.map_eq_some_iff.mp h
      exact List.mem_append_left _ List.mem_cons_self

theorem whole_of_stopsAtEnd (n : Nat) : ∀ {bytes : List UInt8} {str : Nat}, bytes.length = n →
    StringAt mem str bytes → StopsAtEnd mem str bytes → Whole bytes := by
  induction n using Nat.strongRecOn with
  | ind n ih =>
    rintro (_ | ⟨b, bytes⟩) str hn h ⟨fuel, sent, hrun, hstop, hreads⟩
    · exact .nil
    cases fuel with
    | zero => exact nomatch hrun
    | succ fuel =>
      rw [sendUnicodeString_succ (h.1 ▸ h.2.1)] at hrun
      obtain ⟨sent', hrun', rfl⟩ := Option.map_eq_some_iff.mp hrun
      rw [List.length_cons] at hn hstop hreads
      have hnext : (decodeUtf8 mem str).next = str + leadLength b := by rw [decodeUtf8_next, h.1]
      have hpos := leadLength_pos b
      have hfits : leadLength b ≤ bytes.length + 1 := by
        have hread := hreads _ (List.mem_append_right _ (sendUnicodeString_reads_first hrun'))
        omega
      have hlength : (bytes.take (leadLength b - 1)).length + 1 = leadLength b := by
        rw [List.length_take]
        omega
      have hrest : (bytes.drop (leadLength b - 1)).length + leadLength b = bytes.length + 1 := by
        rw [List.length_drop]
        omega
      rw [← List.take_append_drop (leadLength b - 1) bytes] at h ⊢
      refine .cons b _ _ hlength (ih _ (by omega) rfl (h.next hlength).2
        ⟨fuel, sent', hrun', ?_, fun a ha => ?_⟩)
      · rw [hstop]
        omega
      · have := hreads a (List.mem_append_right _ ha)
        omega

theorem sendUnicodeString_encode (cs : List Char) : ∀ {str : Nat},
    StringAt mem str (cs.flatMap String.utf8EncodeChar) →
    ∃ fuel sent, sendUnicodeString mem fuel str = some sent ∧ sent.registered = cs.map fun c => c.val.toNat := by
  induction cs with
  | nil =>
    intro str h
    exact ⟨1, _, sendUnicodeString_end 0 h, rfl⟩
  | cons c cs ih =>
    intro str h
    rw [List.flatMap_cons] at h
    have hnext : (decodeUtf8 mem str).next = str + (String.utf8EncodeChar c).length := by
      rw [decodeUtf8_next, (decodeSequence_encode h).2]
    have hrest := h.drop (n := (String.utf8EncodeChar c).length)
      (by rw [List.length_append]; exact Nat.le_add_right _ _)
    rw [List.drop_left, ← hnext] at hrest
    obtain ⟨fuel, sent, hrun, hregistered⟩ := ih hrest
    have hfirst : mem str ≠ 0 := by
      have hne := @String.utf8EncodeChar_ne_nil c
      cases hbytes : String.utf8EncodeChar c with
      | nil => exact absurd hbytes hne
      | cons b bytes =>
        rw [hbytes] at h
        exact h.1 ▸ h.2.1
    refine ⟨fuel + 1, _, by rw [sendUnicodeString_succ hfirst, hrun]; rfl, ?_⟩
    rw [decodeUtf8_encode h, if_pos (Int.natCast_nonneg _)]
    show [c.val.toNat] ++ sent.registered = _
    rw [hregistered]
    rfl

theorem whole_encode (cs : List Char) : ∀ {str : Nat}, StringAt mem str (cs.flatMap String.utf8EncodeChar) →
    Whole (cs.flatMap String.utf8EncodeChar) := by
  induction cs with
  | nil =>
    intro str _
    exact .nil
  | cons c cs ih =>
    intro str h
    rw [List.flatMap_cons] at h ⊢
    have hlead := (decodeSequence_encode h).2
    cases hbytes : String.utf8EncodeChar c with
    | nil => exact absurd hbytes String.utf8EncodeChar_ne_nil
    | cons b tail =>
      rw [hbytes] at h hlead
      have hlen : tail.length + 1 = leadLength b := by rw [← h.1, hlead, List.length_cons]
      exact .cons b tail _ hlen (ih (h.next hlen).2)

/-- The end of the string is found, and an encoded text is registered character by character. -/
def SendsExactly (mem : Nat → UInt8) (str : Nat) (bytes : List UInt8) : Prop :=
  StopsAtEnd mem str bytes ∧ ∀ cs : List Char, bytes = cs.flatMap String.utf8EncodeChar →
    ∃ fuel sent, sendUnicodeString mem fuel str = some sent ∧ sent.registered = cs.map fun c => c.val.toNat

theorem send_unicode_string_iff {str : Nat} {bytes : List UInt8} (h : StringAt mem str bytes) :
    (SendsExactly mem str bytes ↔ Whole bytes) ∧
      ∀ cs : List Char, bytes = cs.flatMap String.utf8EncodeChar → Whole bytes := by
  refine ⟨⟨fun hexact => whole_of_stopsAtEnd _ rfl h hexact.1, fun hwhole => ⟨stopsAtEnd_of_whole hwhole h, ?_⟩⟩, ?_⟩
  · rintro cs rfl
    exact sendUnicodeString_encode cs h
  · rintro cs rfl
    exact whole_encode cs h

def acuteMemory (a : Nat) : UInt8 := ([0xC3, 0xA9, 0] : List UInt8).getD a 0x41

theorem send_unicode_string_acute : SendsExactly acuteMemory 0 [0xC3, 0xA9] := by
  have hstring : StringAt acuteMemory 0 [0xC3, 0xA9] := ⟨rfl, by decide, rfl, by decide, rfl⟩
  exact (send_unicode_string_iff hstring).1.mpr (.cons 0xC3 [0xA9] [] (by decide) .nil)

/-- The second byte of the sequence is cut off, and what is behind the terminator is typed. -/
def cutMemory (a : Nat) : UInt8 := ([0xC3, 0, 0x41, 0] : List UInt8).getD a 0

theorem send_unicode_string_overruns : StringAt cutMemory 0 [0xC3] ∧ ¬ SendsExactly cutMemory 0 [0xC3] ∧
    (sendUnicodeString cutMemory 3 0).map (fun sent => (sent.registered, sent.stop)) = some ([0xC0, 0x41], 3) := by
  refine ⟨⟨rfl, by decide, rfl⟩, ?_, by decide⟩
  rintro ⟨⟨fuel, sent, hrun, -, hreads⟩, -⟩
  rw [sendUnicodeString.eq_def] at hrun
  cases fuel with
  | zero => exact nomatch hrun
  | succ fuel =>
    obtain ⟨sent', hrun', rfl⟩ := Option.map_eq_some_iff.mp hrun
    exact absurd (hreads 2 (List.mem_append_right _ (sendUnicodeString_reads_first hrun'))) (by decide)

end Unicode
end VialQmk
