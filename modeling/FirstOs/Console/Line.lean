import FirstOs.Console.Ring
import FirstOs.Library.Ring
import Mathlib.Data.List.GetD

/-!
# The line that is returned

The length of a line is recovered from the two positions of the ring, so that it is only known
up to a multiple of 128, the NUL at its end included.

## Main definitions

- `waitLine` — a call of `wait_keyboard_input` with the keys of a line
- `Spells` — the string in a memory
- `Delivered` — the line is returned
- `DeliveredWhen` — the lines that are

## Main results

- `waitReturn_inputBuffer` — what is copied
- `waitLine_delivered_iff` — any line
-/

namespace FirstOs

/-- `wait_keyboard_input`, with the keys that come before the enter key. -/
def waitLine (keys : List (BitVec 8)) (t : Terminal) : Option Terminal :=
  (Run.events keyboardHandler (keys ++ [28])
    { t with keyboard := { t.keyboard with input := true } }).map fun t =>
      { t with keyboard := waitReturn t.keyboard }

/-- The memory holds a string, ended by a NUL. -/
def Spells (f : ℕ → BitVec 8) (str : List (BitVec 8)) : Prop :=
  (∀ (i : ℕ) (h : i < str.length), f i = str[i]) ∧ 0 ∉ str ∧ f str.length = 0

/-- The string returned is the line, or a prefix of one that is too long, and the ring is empty. -/
structure Delivered (line : List (BitVec 8)) (k : Keyboard) : Prop where
  string : ∃ str, Spells k.inputBuffer str ∧ str <+: line ∧ (line.length ≤ 127 → str = line)
  clean : k.head = k.tail

/-- The lines that are delivered, `f` being `input_buffer` before: where nothing is copied, those
    that are still in it; otherwise those that start with what is copied of them. -/
def DeliveredWhen (f : ℕ → BitVec 8) (line : List (BitVec 8)) : Prop :=
  if (line.length + 1) % 128 = 0 then
    ∃ str, Spells f str ∧ str <+: line ∧ (line.length ≤ 127 → str = line)
  else line.drop (128 * ((line.length + 1) / 128)) <+: line

/-! ### Strings -/

section Strings

variable {f : ℕ → BitVec 8} {str str' : List (BitVec 8)}

/-- A string ends at the first NUL. -/
theorem Spells.length_le (h : Spells f str) (h' : Spells f str') : str.length ≤ str'.length := by
  by_contra hlt
  have hin : str'.length < str.length := by omega
  apply h.2.1
  rw [← h'.2.2, h.1 _ hin]
  exact List.getElem_mem hin

theorem Spells.unique (h : Spells f str) (h' : Spells f str') : str = str' := by
  have hlen := (h.length_le h').antisymm (h'.length_le h)
  refine List.ext_getElem hlen fun i hi hi' => ?_
  rw [← h.1 i hi, h'.1 i hi']

end Strings

/-! ### The ring -/

section Ring

variable {k : Keyboard} {line : List (BitVec 8)} {size : ℤ} {i j : ℕ}

theorem pushLine_concat (line : List (BitVec 8)) (ch : BitVec 8) (k : Keyboard) :
    pushLine (line ++ [ch]) k = bufferPush ch (pushLine line k) := List.foldl_concat ..

theorem pushLine_fields (line : List (BitVec 8)) (k : Keyboard) :
    (pushLine line k).head = k.head ∧ (pushLine line k).inputBuffer = k.inputBuffer := by
  induction line generalizing k with
  | nil => exact ⟨rfl, rfl⟩
  | cons ch line ih => exact ih (bufferPush ch k)

/-- The characters go round the ring. -/
theorem pushLine_buffer (h0 : 0 ≤ k.tail) (hlt : k.tail < 128) :
    (pushLine line k).buffer = Ring.fill 128 k.buffer k.tail line := by
  induction line generalizing k with
  | nil => rfl
  | cons ch line ih =>
    have htail := bufferPush_tail h0 ch
    have hpush : (pushLine (ch :: line) k).buffer =
        Ring.fill 128 (bufferPush ch k).buffer (bufferPush ch k).tail line :=
      ih (k := bufferPush ch k) (by omega) (by omega)
    rw [hpush, htail]
    rfl

theorem copyLine_inputBuffer : (copyLine size i k).inputBuffer j =
    if i ≤ j ∧ j < size then k.buffer ((k.head + j).tmod 128) else k.inputBuffer j := by
  fun_induction copyLine size i k with
  | case1 i k hi ih =>
    rw [ih]
    by_cases hj : i + 1 ≤ j ∧ j < size
    · rw [if_pos hj, if_pos (by omega)]
    · rw [if_neg hj]
      by_cases heq : j = i
      · rw [heq, if_pos ⟨le_refl i, hi⟩]
        exact Function.update_self ..
      · rw [if_neg (by omega)]
        exact Function.update_of_ne heq ..
  | case2 i k hi => rw [if_neg (by omega)]

/-- What is copied lies behind the head. -/
theorem waitReturn_copied (hhead : 0 ≤ k.head)
    (hsize : (k.tail + 128 - k.head).tmod 128 = size) : (waitReturn k).inputBuffer j =
      if (j : ℤ) < size then k.buffer ((k.head + j) % 128) else k.inputBuffer j := by
  have hcopy : (waitReturn k).inputBuffer j =
      (copyLine ((k.tail + 128 - k.head).tmod 128) 0 k).inputBuffer j := rfl
  rw [hcopy, copyLine_inputBuffer, hsize, Int.tmod_eq_emod_of_nonneg (by omega)]
  simp only [Nat.zero_le, true_and]

/-- The ring when the line and its NUL have been put into it. -/
def ended (line : List (BitVec 8)) (k : Keyboard) : Keyboard :=
  { pushLine (line ++ [0]) k with input := false }

theorem ended_eq : ended line k = { bufferPush 0 (pushLine line k) with input := false } := by
  rw [ended, pushLine_concat]

theorem ended_head : (ended line k).head = k.head := (pushLine_fields _ k).1

theorem ended_tail (h0 : 0 ≤ k.tail) (hlt : k.tail < 128) :
    (ended line k).tail = (k.tail + (line.length + 1 : ℕ)) % 128 := by
  refine (pushLine_tail h0 hlt).trans ?_
  rw [List.length_append, List.length_singleton]

/-- The ring holds the end of the line. -/
theorem ended_buffer (h0 : 0 ≤ k.tail) (hlt : k.tail < 128) (hj : j < line.length + 1)
    (hlast : line.length + 1 ≤ j + 128) :
    (ended line k).buffer ((k.tail + j) % 128) = line.getD j 0 := by
  have hlen : (line ++ [0]).length = line.length + 1 := by
    rw [List.length_append, List.length_singleton]
  have hfill : (ended line k).buffer = Ring.fill 128 k.buffer k.tail (line ++ [0]) :=
    pushLine_buffer h0 hlt
  rw [hfill, Ring.fill_get h0 hlt (by omega) (by omega)]
  obtain hin | rfl := Nat.lt_succ_iff_lt_or_eq.mp hj
  · rw [List.getElem_append_left hin, List.getD_eq_getElem _ _ hin]
  · rw [List.getElem_concat_length rfl, List.getD_eq_default _ _ (le_refl _)]

/-- The number of characters copied. -/
theorem ended_size (hring : k.head = k.tail) (h0 : 0 ≤ k.tail) (hlt : k.tail < 128) :
    ((ended line k).tail + 128 - (ended line k).head).tmod 128 =
      ((line.length + 1) % 128 : ℕ) := by
  rw [ended_head, ended_tail h0 hlt, hring, Int.tmod_eq_emod_of_nonneg (by omega)]
  omega

/-- What is copied is the line behind the last multiple of 128. -/
theorem waitReturn_inputBuffer (hring : k.head = k.tail) (h0 : 0 ≤ k.tail) (hlt : k.tail < 128) :
    (waitReturn (ended line k)).inputBuffer j =
      if j < (line.length + 1) % 128 then
        line.getD (j + 128 * ((line.length + 1) / 128)) 0
      else k.inputBuffer j := by
  have hhead : (ended line k).head = k.tail := ended_head.trans hring
  rw [waitReturn_copied (hhead ▸ h0) (ended_size hring h0 hlt), hhead]
  by_cases hj : j < (line.length + 1) % 128
  · have hslot : (k.tail + j) % 128 =
        (k.tail + (j + 128 * ((line.length + 1) / 128) : ℕ)) % 128 := by omega
    rw [if_pos (by omega), if_pos hj, hslot,
      ended_buffer h0 hlt (by omega) (by omega)]
  · rw [if_neg (by omega), if_neg hj]
    exact congrFun (pushLine_fields _ k).2 j

/-- The ring is empty when the line has been returned. -/
theorem waitReturn_clean (h0 : 0 ≤ k.tail) (hlt : k.tail < 128) :
    (waitReturn (ended line k)).head = (waitReturn (ended line k)).tail := by
  have htail := @ended_tail k line h0 hlt
  obtain ⟨hhead, hsame⟩ := @waitReturn_fields (ended line k)
  rw [hhead, hsame, Int.tmod_eq_emod_of_nonneg (by omega)]
  omega

/-- The string of what is copied. -/
theorem spells_waitReturn (hring : k.head = k.tail) (h0 : 0 ≤ k.tail) (hlt : k.tail < 128)
    (hline : 0 ∉ line) (hsome : (line.length + 1) % 128 ≠ 0) :
    Spells (waitReturn (ended line k)).inputBuffer
      (line.drop (128 * ((line.length + 1) / 128))) := by
  have hlen : (line.drop (128 * ((line.length + 1) / 128))).length =
      (line.length + 1) % 128 - 1 := by
    rw [List.length_drop]
    omega
  refine ⟨fun i hi => ?_, fun hmem => hline (List.mem_of_mem_drop hmem), ?_⟩
  · rw [waitReturn_inputBuffer hring h0 hlt, if_pos (by omega), List.getElem_drop,
      Nat.add_comm i, List.getD_eq_getElem]
  · rw [waitReturn_inputBuffer hring h0 hlt, if_pos (by omega), hlen,
      List.getD_eq_default _ _ (by omega)]

/-- Nothing is copied of a line that fills the ring. -/
theorem waitReturn_full (hring : k.head = k.tail) (h0 : 0 ≤ k.tail) (hlt : k.tail < 128)
    (hfull : (line.length + 1) % 128 = 0) :
    (waitReturn (ended line k)).inputBuffer = k.inputBuffer := by
  funext j
  rw [waitReturn_inputBuffer hring h0 hlt, if_neg (by omega)]

theorem delivered_iff (hring : k.head = k.tail) (h0 : 0 ≤ k.tail) (hlt : k.tail < 128)
    (hline : 0 ∉ line) :
    Delivered line (waitReturn (ended line k)) ↔ DeliveredWhen k.inputBuffer line := by
  have hclean := @waitReturn_clean k line h0 hlt
  simp only [DeliveredWhen]
  split_ifs with hfull
  · constructor
    · rintro ⟨hstring, -⟩
      rwa [waitReturn_full hring h0 hlt hfull] at hstring
    · intro hstring
      refine ⟨?_, hclean⟩
      rwa [waitReturn_full hring h0 hlt hfull]
  · have hspells := spells_waitReturn hring h0 hlt hline hfull
    constructor
    · rintro ⟨⟨str, hstr, hprefix, -⟩, -⟩
      exact hspells.unique hstr ▸ hprefix
    · intro hprefix
      refine ⟨⟨_, hspells, hprefix, fun hshort => ?_⟩, hclean⟩
      rw [Nat.div_eq_of_lt (by omega), Nat.mul_zero, List.drop_zero]

end Ring

/-! ### A whole line -/

/-- The keys of a line and the enter key. -/
theorem keys_ended {t : Terminal} {keys : List (BitVec 8)} (hin : t.keyboard.input = true)
    (hkeys : ∀ data ∈ keys, CharKey data) :
    ∃ t', Run.events keyboardHandler (keys ++ [28]) t = some t' ∧
      t'.keyboard = ended (keys.map (charOf t.keyboard)) t.keyboard := by
  obtain ⟨vga, hrun⟩ := @keys_pushLine [] t _ hin hkeys
  have hin' : (pushLine (keys.map (charOf t.keyboard)) t.keyboard).input = true :=
    (pushLine_input _ _).trans hin
  rw [Run.events_map] at hrun
  have hrun' : Run.events keyboardHandler keys t = some
      { t with vga := vga, keyboard := pushLine (keys.map (charOf t.keyboard)) t.keyboard } := hrun
  refine ⟨Terminal.entered { t with
    vga := vga, keyboard := pushLine (keys.map (charOf t.keyboard)) t.keyboard }, ?_, ?_⟩
  · rw [Run.events_append_of hrun', Run.events_cons (keyboardHandler_enter hin'), Run.events_nil]
  · rw [ended_eq]
    rfl

theorem waitLine_eq {t : Terminal} {keys : List (BitVec 8)}
    (hkeys : ∀ data ∈ keys, CharKey data) : ∃ t', waitLine keys t = some t' ∧
      t'.keyboard = waitReturn (ended (keys.map (charOf t.keyboard))
        { t.keyboard with input := true }) := by
  obtain ⟨t', hrun, hkeyboard⟩ := keys_ended
    (t := { t with keyboard := { t.keyboard with input := true } }) rfl hkeys
  refine ⟨{ t' with keyboard := waitReturn t'.keyboard }, ?_, congrArg waitReturn hkeyboard⟩
  rw [waitLine, hrun]
  rfl

/-- Every line of character keys is returned; it is delivered exactly when it meets the
    condition. -/
theorem waitLine_delivered_iff {t : Terminal} (hring : t.keyboard.head = t.keyboard.tail)
    (h0 : 0 ≤ t.keyboard.tail) (hlt : t.keyboard.tail < 128) {keys : List (BitVec 8)}
    (hkeys : ∀ data ∈ keys, CharKey data) :
    ∃ t', waitLine keys t = some t' ∧ t'.keyboard.head = t'.keyboard.tail ∧
      (Delivered (keys.map (charOf t.keyboard)) t'.keyboard ↔
        DeliveredWhen t.keyboard.inputBuffer (keys.map (charOf t.keyboard))) := by
  obtain ⟨t', hwait, hkeyboard⟩ := waitLine_eq (t := t) hkeys
  have hline : 0 ∉ keys.map (charOf t.keyboard) := by
    intro hmem
    obtain ⟨data, hdata, hzero⟩ := List.mem_map.mp hmem
    exact charOf_visible t.keyboard (hkeys data hdata) (hzero ▸ List.mem_cons_self)
  refine ⟨t', hwait, ?_, ?_⟩
  · rw [hkeyboard]
    exact waitReturn_clean h0 hlt
  · rw [hkeyboard]
    exact delivered_iff (k := { t.keyboard with input := true }) hring h0 hlt hline

theorem waitLine_delivered_iff_two : ∃ t', waitLine [30, 48] bootedTerminal = some t' ∧
    t'.keyboard.head = t'.keyboard.tail ∧
      (Delivered ([30, 48].map (charOf bootedTerminal.keyboard)) t'.keyboard ↔
        DeliveredWhen bootedTerminal.keyboard.inputBuffer
          ([30, 48].map (charOf bootedTerminal.keyboard))) :=
  waitLine_delivered_iff rfl (by decide) (by decide) (by decide)

/-- The first line of 127 characters is returned as the empty string. -/
theorem not_delivered : ¬ ∀ t : Terminal, t.keyboard.head = t.keyboard.tail →
    0 ≤ t.keyboard.tail → t.keyboard.tail < 128 → ∀ keys : List (BitVec 8),
      (∀ data ∈ keys, CharKey data) → ∃ t', waitLine keys t = some t' ∧
        Delivered (keys.map (charOf t.keyboard)) t'.keyboard := by
  intro hall
  have hkeys : ∀ data ∈ List.replicate 127 (30 : BitVec 8), CharKey data := fun data hmem =>
    (List.eq_of_mem_replicate hmem).symm ▸ by decide
  obtain ⟨t', hwait, hdelivered⟩ := hall bootedTerminal rfl (by decide) (by decide) _ hkeys
  obtain ⟨t'', hwait', hkeyboard⟩ := waitLine_eq (t := bootedTerminal) hkeys
  obtain rfl := Option.some.inj (hwait.symm.trans hwait')
  have hlen : ((List.replicate 127 (30 : BitVec 8)).map
      (charOf bootedTerminal.keyboard)).length = 127 := by
    rw [List.length_map, List.length_replicate]
  generalize (List.replicate 127 (30 : BitVec 8)).map (charOf bootedTerminal.keyboard) = line
    at hdelivered hkeyboard hlen
  have hblank : Spells (fun _ => 0) [] :=
    ⟨fun i hi => absurd hi (Nat.not_lt_zero i), List.not_mem_nil, rfl⟩
  obtain ⟨str, hstr, -, hline⟩ := hdelivered.string
  rw [hkeyboard, waitReturn_full rfl (by decide) (by decide) (by rw [hlen])] at hstr
  obtain rfl := hstr.unique hblank
  rw [← hline hlen.le] at hlen
  exact absurd hlen (by decide)

end FirstOs
