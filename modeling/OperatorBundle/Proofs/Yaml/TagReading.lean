import OperatorBundle.Proofs.Yaml.Characters
import OperatorBundle.Yaml.Token.Tag

/-!
Tags read back up to the gap behind them: what follows the gap makes no difference.

* `tagToken_append`: a tag before a gap is read as the same tag alone.
-/

namespace OperatorBundle.Yaml

open OperatorBundle.Text

variable {rest : List Char} {wide : Bool}

/-- What a gap starts with takes no part in a tag. -/
theorem of_atGap (wide : Bool) {c : Char} {more : List Char} (h : atGap (c :: more)) :
    isTagChar wide c = false ∧ digitValue? c = none ∧ isWord c = false ∧
      c ∉ ['%', '!', '<', '>'] := by
  have hmem : c ∈ [' ', '\t', '\n', '\u2028', '\u2029'] := by
    simp only [atGap, isPad, isBreak, Bool.or_eq_true, decide_eq_true_eq] at h
    simp only [List.mem_cons, List.not_mem_nil, or_false]
    tauto
  have hmarks : ∀ c ∈ [' ', '\t', '\n', '\u2028', '\u2029'], ∀ wide,
      isTagChar wide c = false ∧ digitValue? c = none ∧ isWord c = false ∧
        c ∉ ['%', '!', '<', '>'] := List.all_iff_forall_prop.1 (by decide)
  exact hmarks c hmem wide

theorem tagBytes_gap (hrest : atGap rest) (pending : Nat) (bytes : List UInt8) (used : Nat) :
    tagBytes wide rest pending bytes used = tagBytes wide [] pending bytes used := by
  cases rest with
  | nil => rfl
  | cons c more =>
    obtain ⟨htag, -, -, hmarks⟩ := of_atGap wide hrest
    have hpercent : c ≠ '%' := fun h => hmarks (by simp [h])
    rw [tagBytes.eq_def, tagBytes.eq_def]
    by_cases hpending : pending = 0 <;> simp [hpercent, htag, hpending]

theorem tagBytes_char {c : Char} (hc : c ≠ '%') (more : List Char) (pending : Nat)
    (bytes : List UInt8) (used : Nat) :
    tagBytes wide (c :: more) pending bytes used =
      if pending ≠ 0 then .error .tag
      else if isTagChar wide c then tagBytes wide more 0 (c.toNat.toUInt8 :: bytes) (used + 1)
      else .ok (bytes.reverse, used) := by
  rw [tagBytes.eq_def]
  split
  · rename_i h
    exact absurd (List.cons.inj h).1 hc
  · rename_i h
    cases h
  · rename_i h
    obtain ⟨rfl, rfl⟩ := List.cons.inj h
    simp [hc]

/-- A percent sign needs two digits behind it. -/
theorem tagBytes_percent {more : List Char}
    (h : more.head?.bind digitValue? = none ∨ more.tail.head?.bind digitValue? = none)
    (pending : Nat) (bytes : List UInt8) (used : Nat) :
    tagBytes wide ('%' :: more) pending bytes used = .error .tag := by
  rw [tagBytes.eq_def]
  split
  · rename_i a b rest heq
    obtain ⟨-, rfl⟩ := List.cons.inj heq
    split
    · rename_i high low hhigh hlow
      rcases h with h | h
      · exact absurd (h.symm.trans hhigh) (by simp)
      · exact absurd (h.symm.trans hlow) (by simp)
    · rfl
  · rename_i heq
    cases heq
  · rename_i heq
    obtain ⟨rfl, rfl⟩ := List.cons.inj heq
    simp

theorem digit_of_atGap (hrest : atGap rest) : rest.head?.bind digitValue? = none := by
  cases rest with
  | nil => rfl
  | cons c more => exact (of_atGap true hrest).2.1

/-- The bytes of a tag end at a gap, if not before. -/
theorem tagBytes_append (hrest : atGap rest) (cs : List Char) (pending : Nat) (bytes : List UInt8)
    (used : Nat) :
    tagBytes wide (cs ++ rest) pending bytes used = tagBytes wide cs pending bytes used := by
  fun_induction tagBytes wide cs pending bytes used with
  | case1 a b more bytes used high low hlow hhigh byte n hn ih =>
    rw [← ih]
    simp only [List.cons_append, tagBytes, hhigh, hlow, if_true]
    rw [show followers? (high * 16 + low) = some n from hn]
  | case2 a b more bytes used high low hlow hhigh byte hn =>
    simp only [List.cons_append, tagBytes, hhigh, hlow, if_true]
    rw [show followers? (high * 16 + low) = none from hn]
  | case3 a b more pending bytes used high low hlow hhigh byte hpending hbyte ih =>
    rw [← ih]
    simp only [List.cons_append, tagBytes, hhigh, hlow, if_neg hpending]
    rw [if_pos hbyte]
  | case4 a b more pending bytes used high low hlow hhigh byte hpending hbyte =>
    simp only [List.cons_append, tagBytes, hhigh, hlow, if_neg hpending]
    rw [if_neg hbyte]
  | case5 a b more pending bytes used hdigits =>
    refine tagBytes_percent ?_ pending bytes used
    cases ha : digitValue? a with
    | none => exact .inl ha
    | some high =>
      refine .inr ?_
      cases hb : digitValue? b with
      | none => exact hb
      | some low => exact absurd (hdigits high low ha hb) id
  | case6 bytes used => rw [List.nil_append, tagBytes_gap hrest]; simp [tagBytes]
  | case7 pending bytes used hpending =>
    rw [List.nil_append, tagBytes_gap hrest]
    simp [tagBytes, hpending]
  | case8 c more pending bytes used hmore hstops =>
    by_cases hc : c = '%'
    · subst hc
      refine tagBytes_percent ?_ pending bytes used
      -- what is left of the tag is shorter than two digits
      cases more with
      | nil => exact .inl (digit_of_atGap hrest)
      | cons d more =>
        cases more with
        | nil => exact .inr (digit_of_atGap hrest)
        | cons e more => exact absurd rfl (hmore d e more rfl)
    · rw [List.cons_append, tagBytes_char hc, if_pos (by simpa [hc] using hstops)]
  | case9 c more pending bytes used hmore hstops htag ih =>
    simp only [Bool.or_eq_true, decide_eq_true_eq, not_or, not_not] at hstops
    rw [List.cons_append, tagBytes_char hstops.2, if_neg (by simp [hstops.1]), if_pos htag, ih]
  | case10 c more pending bytes used hmore hstops htag =>
    simp only [Bool.or_eq_true, decide_eq_true_eq, not_or, not_not] at hstops
    rw [List.cons_append, tagBytes_char hstops.2, if_neg (by simp [hstops.1]), if_neg htag]

/-- The bytes of a tag stand in its text. -/
theorem le_of_tagBytes {cs : List Char} {pending : Nat} {bytes bytes' : List UInt8}
    {used used' : Nat} (h : tagBytes wide cs pending bytes used = .ok (bytes', used')) :
    used ≤ used' ∧ used' ≤ used + cs.length := by
  fun_induction tagBytes wide cs pending bytes used with
  | case1 a b more bytes used high low hlow hhigh byte n hn ih =>
    have := ih h
    simp only [List.length_cons]
    omega
  | case3 a b more pending bytes used high low hlow hhigh byte hpending hbyte ih =>
    have := ih h
    simp only [List.length_cons]
    omega
  | case9 c more pending bytes used hmore hstops htag ih =>
    have := ih h
    simp only [List.length_cons]
    omega
  | case6 | case10 =>
    obtain ⟨-, rfl⟩ := Prod.mk.inj (Except.ok.inj h)
    omega
  | case2 | case4 | case5 | case7 | case8 => cases h

/-- The word after a mark ends at a gap, if not before. -/
theorem word_append (hrest : atGap rest) (cs : List Char) :
    (cs ++ rest).takeWhile isWord = cs.takeWhile isWord ∧
      (cs ++ rest).dropWhile isWord = cs.dropWhile isWord ++ rest := by
  induction cs with
  | nil =>
    cases rest with
    | nil => exact ⟨rfl, rfl⟩
    | cons c more =>
      have hword : isWord c = false := (of_atGap true hrest).2.2.1
      simp [hword]
  | cons c more ih =>
    by_cases hc : isWord c
    · simp [hc, ih]
    · simp [hc]

theorem head?_append_of_atGap (hrest : atGap rest) {c : Char} (hc : c ∈ ['%', '!', '<', '>'])
    (cs : List Char) : (cs ++ rest).head? = some c ↔ cs.head? = some c := by
  cases cs with
  | nil =>
    have hne : rest.head? ≠ some c := by
      cases rest with
      | nil => simp
      | cons d more =>
        intro h
        obtain rfl := Option.some.inj h
        exact (of_atGap true hrest).2.2.2 hc
    simp [hne]
  | cons d more => simp

theorem tagHandle_append (hrest : atGap rest) (cs : List Char) :
    tagHandle ('!' :: cs ++ rest) = tagHandle ('!' :: cs) := by
  obtain ⟨htake, hdrop⟩ := word_append hrest cs
  have hmark := head?_append_of_atGap hrest (c := '!') (by simp) (cs.dropWhile isWord)
  rw [List.cons_append, tagHandle, tagHandle, htake, hdrop]
  cases hcs : cs.dropWhile isWord with
  | nil =>
    rw [hcs] at hmark
    cases rest with
    | nil => rfl
    | cons c more =>
      have hc : c ≠ '!' := by simpa using hmark
      simp [hc]
  | cons c more => by_cases hc : c = '!' <;> simp [hc]

theorem length_tagHandle_le (cs : List Char) :
    (tagHandle ('!' :: cs)).length ≤ ('!' :: cs).length := by
  have hlength : (cs.takeWhile isWord).length + (cs.dropWhile isWord).length = cs.length := by
    rw [← List.length_append, List.takeWhile_append_dropWhile]
  rw [tagHandle]
  split
  · rename_i hdrop
    rw [hdrop] at hlength
    simp only [List.length_cons, List.length_append, List.length_nil] at hlength ⊢
    omega
  · simp only [List.length_cons]
    omega

/-- A tag of a handle, the bytes behind it and their number of characters. -/
def handleTag (handle : List Char) (bytes : List UInt8) (used : Nat) :
    Except Fault (TagText × Nat) :=
  if 1 < handle.length ∧ handle.getLast? = some '!' then
    if used = 0 then .error .tag else .ok (⟨handle, beforeZero bytes⟩, handle.length + used)
  else if beforeZero (asciiBytes (handle.drop 1) ++ bytes) = [] then
    .ok (⟨[], asciiBytes ['!']⟩, handle.length + used)
  else .ok (⟨['!'], beforeZero (asciiBytes (handle.drop 1) ++ bytes)⟩, handle.length + used)

theorem tagText_handle {cs : List Char} (h : cs.head? ≠ some '<') :
    tagText ('!' :: cs) =
      tagBytes false (('!' :: cs).drop (tagHandle ('!' :: cs)).length) 0 [] 0 >>= fun result =>
        handleTag (tagHandle ('!' :: cs)) result.1 result.2 := by
  rw [tagText.eq_def]
  split
  · rename_i heq
    exact absurd (by rw [(List.cons.inj heq).2]; rfl) h
  · dsimp only
    congr 1
    funext result
    obtain ⟨bytes, used⟩ := result
    unfold handleTag
    dsimp only
    split_ifs with hmarks hused hempty
    · rfl
    · rfl
    · rw [hempty]
    · split
      · rename_i hnil
        exact absurd hnil hempty
      · rfl

theorem tagText_append (hrest : atGap rest) (cs : List Char) :
    tagText ('!' :: cs ++ rest) = tagText ('!' :: cs) := by
  have hangle := head?_append_of_atGap hrest (c := '<') (by simp) cs
  have hhandle := tagHandle_append hrest cs
  by_cases hcs : cs.head? = some '<'
  · obtain ⟨more, rfl⟩ := List.head?_eq_some_iff.1 hcs
    simp only [List.cons_append, tagText, tagBytes_append hrest]
    cases hbytes : tagBytes true more 0 [] 0 with
    | error e => rfl
    | ok result =>
      obtain ⟨bytes, used⟩ := result
      have hused := (le_of_tagBytes hbytes).2
      have hclose := head?_append_of_atGap hrest (c := '>') (by simp) (more.drop used)
      dsimp only [bind, Except.bind]
      rw [List.drop_append_of_le_length (by omega)]
      cases hdrop : more.drop used with
      | nil =>
        rw [hdrop] at hclose
        cases rest with
        | nil => rfl
        | cons c after =>
          have hc : c ≠ '>' := by simpa using hclose
          simp [hc]
      | cons c after => by_cases hc : c = '>' <;> simp [hc]
  · have hshort : (cs ++ rest).head? ≠ some '<' := fun h => hcs (hangle.1 h)
    rw [List.cons_append] at hhandle ⊢
    rw [tagText_handle hcs, tagText_handle hshort, hhandle, ← List.cons_append,
      List.drop_append_of_le_length (length_tagHandle_le cs), tagBytes_append hrest]

theorem le_of_tagText {cs : List Char} {tag : TagText} {used : Nat}
    (h : tagText ('!' :: cs) = .ok (tag, used)) : used ≤ cs.length + 1 := by
  by_cases hcs : cs.head? = some '<'
  · obtain ⟨more, rfl⟩ := List.head?_eq_some_iff.1 hcs
    rw [tagText] at h
    cases hbytes : tagBytes true more 0 [] 0 with
    | error e => rw [hbytes] at h; cases h
    | ok result =>
      obtain ⟨bytes, taken⟩ := result
      rw [hbytes] at h
      dsimp only [bind, Except.bind] at h
      split at h
      · rename_i hdrop
        have hlength := congrArg List.length hdrop
        simp only [List.length_drop, List.length_cons] at hlength
        split at h
        · cases h
        · obtain ⟨-, rfl⟩ := Prod.mk.inj (Except.ok.inj h)
          simp only [List.length_cons]
          omega
      · cases h
  · rw [tagText_handle hcs] at h
    cases hbytes : tagBytes false (('!' :: cs).drop (tagHandle ('!' :: cs)).length) 0 [] 0 with
    | error e => rw [hbytes] at h; cases h
    | ok result =>
      obtain ⟨bytes, taken⟩ := result
      have hhandle := length_tagHandle_le cs
      have htaken := (le_of_tagBytes hbytes).2
      simp only [List.length_drop, List.length_cons] at htaken hhandle
      rw [hbytes] at h
      have htotal : used = (tagHandle ('!' :: cs)).length + taken := by
        simp only [bind, Except.bind, handleTag] at h
        split_ifs at h <;> exact (Prod.mk.inj (Except.ok.inj h)).2.symm
      omega

/-- **A tag before a gap** is read as the same tag alone, and to its end. -/
theorem tagToken_append (hrest : atGap rest) {cs : List Char} (hcs : ∀ c ∈ cs, isGraphic c) :
    tagToken false ('!' :: cs ++ rest) = tagToken false ('!' :: cs) ∧
      ∀ tag used, tagToken false ('!' :: cs) = .ok (tag, used) → used = cs.length + 1 := by
  -- within the tag there is no gap
  have hgap (n : Nat) (hn : n < ('!' :: cs).length) (after : List Char) :
      atGap (('!' :: cs).drop n ++ after) = false := by
    obtain ⟨c, more, hdrop⟩ := List.exists_cons_of_ne_nil (l := ('!' :: cs).drop n) (by
      rw [← List.length_pos_iff, List.length_drop]
      omega)
    have hc : isGraphic c := by
      have hmem : c ∈ '!' :: cs := List.mem_of_mem_drop (hdrop ▸ List.mem_cons_self)
      rcases List.mem_cons.1 hmem with rfl | hmem
      · decide
      · exact hcs c hmem
    rw [hdrop]
    simp [atGap, isPad_of_isGraphic hc, isBreak_eq_false (endsLine_of_isGraphic hc)]
  simp only [tagToken, tagText_append hrest]
  cases htext : tagText ('!' :: cs) with
  | error e => exact ⟨rfl, fun tag used h => by cases h⟩
  | ok result =>
    obtain ⟨tag, used⟩ := result
    have hused := le_of_tagText htext
    have hlength : ('!' :: cs).length = cs.length + 1 := rfl
    rw [← hlength] at hused ⊢
    dsimp only [bind, Except.bind]
    rw [List.drop_append_of_le_length hused]
    by_cases hlast : used = ('!' :: cs).length
    · subst hlast
      rw [List.drop_length, List.nil_append, hrest]
      refine ⟨rfl, fun tag used h => ?_⟩
      exact ((Prod.mk.inj (Except.ok.inj h)).2).symm
    · have hlt := Nat.lt_of_le_of_ne hused hlast
      have halone := hgap used hlt []
      rw [List.append_nil] at halone
      rw [hgap used hlt rest, halone]
      exact ⟨rfl, fun tag used h => by cases h⟩

end OperatorBundle.Yaml
