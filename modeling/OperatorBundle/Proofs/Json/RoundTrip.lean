import OperatorBundle.Proofs.Json.Tokens

/-!
Written documents that are read. From the tokens of a document the reader gets the document back,
whatever is open around it; so both written forms are read as the document.
-/

namespace OperatorBundle.Json

/-! ### Reading tokens -/

/-- Whether a reader takes tokens and is then another one. -/
def Reader.Takes (tokens : List Token) (reader after : Reader) : Prop :=
  tokens.foldlM step reader = some after

namespace Reader

variable {token : Token} {tokens others : List Token} {reader between after : Reader}

theorem Takes.cons (h : reader.step token = some between) (hmore : Takes tokens between after) :
    Takes (token :: tokens) reader after := by
  rw [Takes, List.foldlM_cons, h]
  exact hmore

theorem Takes.append (h : Takes tokens reader between) (hmore : Takes others between after) :
    Takes (tokens ++ others) reader after := by
  rw [Takes, List.foldlM_append, h]
  exact hmore

section Listed

variable {α : Type} {part : α → List Token} {closing : Token} {due : List α → Reader}
  {held : List α → α → Reader} {closed : List α → Reader}

/-- Parts with commas between them, up to the closing bracket, after parts that have been read. What
has been read is kept with the last part first. -/
theorem takes_listed_cons
    (hcomma : ∀ done a, (held done a).step (.mark ',') = some (due (a :: done)))
    (hclose : ∀ done a, (held done a).step closing = some (closed (a :: done).reverse))
    (a : α) (more done : List α)
    (hpart : ∀ b ∈ a :: more, ∀ done, Takes (part b) (due done) (held done b)) :
    Takes (listed ((a :: more).map part) ++ [closing]) (due done)
      (closed (done.reverse ++ a :: more)) := by
  induction more generalizing a done with
  | nil =>
    have hlast : Takes [closing] (held done a) (closed (a :: done).reverse) :=
      .cons (hclose done a) rfl
    rw [List.reverse_cons] at hlast
    exact (hpart a List.mem_cons_self done).append hlast
  | cons b more ih =>
    obtain ⟨ha, hmore⟩ := List.forall_mem_cons.1 hpart
    have htail := ih b (a :: done) hmore
    rw [List.reverse_cons, List.append_assoc, List.singleton_append] at htail
    rw [List.map_cons, List.map_cons, listed, List.append_assoc]
    · exact (ha done).append (.cons (hcomma done a) htail)
    · simp

/-- Parts with commas between them, up to the closing bracket. -/
theorem takes_listed {parts : List α} (due : List α → Reader) (held : List α → α → Reader)
    (closed : List α → Reader) (hempty : (due []).step closing = some (closed []))
    (hpart : ∀ a ∈ parts, ∀ done, Takes (part a) (due done) (held done a))
    (hcomma : ∀ done a, (held done a).step (.mark ',') = some (due (a :: done)))
    (hclose : ∀ done a, (held done a).step closing = some (closed (a :: done).reverse)) :
    Takes (listed (parts.map part) ++ [closing]) (due []) (closed parts) := by
  cases parts with
  | nil => exact .cons hempty rfl
  | cons a more => exact takes_listed_cons hcomma hclose a more [] hpart

end Listed

end Reader

/-- A reader that is due a value takes the tokens of one. -/
theorem takes_tokens {json : Json} (h : json.Proper) (frames : List Frame) :
    Reader.Takes json.tokens ⟨.value, frames⟩ ⟨.next json, frames⟩ := by
  induction h generalizing frames with
  | null => exact .cons rfl rfl
  | bool value => cases value <;> exact .cons rfl rfl
  | number h =>
    refine .cons ?_ rfl
    rw [Reader.step, scalar?_numeral h, String.ofList_toList, Option.map_some]
  | string text => exact .cons rfl rfl
  | @array items h ih =>
    rw [tokens, itemTokens_eq]
    exact .cons rfl (Reader.takes_listed (fun done => ⟨.value, .array done :: frames⟩)
      (fun done item => ⟨.next item, .array done :: frames⟩)
      (fun items => ⟨.next (.array items), frames⟩) rfl (fun item hitem done => ih item hitem _)
      (fun _ _ => rfl) fun _ _ => rfl)
  | @object members h ih =>
    rw [tokens, memberTokens_eq]
    refine .cons rfl (Reader.takes_listed (fun done => ⟨.name done, frames⟩)
      (fun done m => ⟨.next m.2, .object done m.1 :: frames⟩)
      (fun members => ⟨.next (.object members), frames⟩) rfl (fun m hm done => ?_)
      (fun _ _ => rfl) fun _ _ => rfl)
    have hname : Reader.step ⟨.name done, frames⟩ (.string m.1) =
        some ⟨.colon done m.1, frames⟩ := by
      cases done <;> rfl
    exact .cons hname (.cons rfl (ih m hm _))

/-- **A document is read from its tokens.** -/
theorem ofTokens?_tokens {json : Json} (h : json.Proper) : ofTokens? json.tokens = some json := by
  rw [ofTokens?, takes_tokens h []]
  rfl

/-- A text with the tokens of a document, before blanks, is read as the document. -/
theorem ofText?_of_hasTokens {json : Json} {text blanks : List Char} (h : json.Proper)
    (htext : HasTokens text json.tokens) (hends : EndsWord blanks)
    (hblanks : SplitsOff blanks []) : ofText? (String.ofList (text ++ blanks)) = some json := by
  have hall := htext.append hblanks.hasTokens hends [] (by simp [EndsWord])
  rw [List.append_nil, List.append_nil] at hall
  rw [ofText?, String.toList_ofList, hall, tokens?]
  simpa using ofTokens?_tokens h

/-- **A document is read from its written form without blanks.** -/
theorem ofText?_compact {json : Json} (h : json.Proper) :
    ofText? (String.ofList json.compact) = some json := by
  have := ofText?_of_hasTokens h (hasTokens_compact h) (by simp [EndsWord]) splitsOff_nil
  rwa [List.append_nil] at this

/-- **A document is read from its written form on lines**, with a line feed at its end. -/
theorem ofText?_pretty {json : Json} (h : json.Proper) :
    ofText? (String.ofList json.pretty ++ "\n") = some json := by
  have hfeed : SplitsOff ['\n'] [] := splitsOff_spaces (List.all_eq_true.1 rfl)
  have := ofText?_of_hasTokens h (hasTokens_prettyAt h 0) (endsWord_cons rfl _) hfeed
  rwa [String.ofList_append] at this

end OperatorBundle.Json
