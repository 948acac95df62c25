import OperatorBundle.Yaml.Document

/-!
Nodes that are read before the end of a block. A reader that takes a node from all the tokens there
are takes the same node from them where the block around it ends behind them, and more steps than
it needs change nothing.

* `frames_node`: the node is the same before the end of a block.
-/

namespace OperatorBundle.Yaml

/-- The same tokens before the end of a block. -/
def Rest.inBlock (rest : Rest) : Rest := { rest with tokens := rest.tokens ++ [.blockEnd] }

namespace Reader

variable {α β : Type} {r r' : Reader α}

/-- **What one reader takes from all the tokens, another takes from them before the end of a
block**, and what is left are the last ones. -/
def Frames (r r' : Reader α) : Prop :=
  ∀ ⦃rest a rest'⦄, r rest = .ok (a, rest') →
    r' rest.inBlock = .ok (a, rest'.inBlock) ∧ rest'.tokens <:+ rest.tokens

/-- The same where a token comes next. -/
def FramesAt (token : Token) (r r' : Reader α) : Prop :=
  ∀ ⦃more anchors a rest'⦄, r ⟨token :: more, anchors⟩ = .ok (a, rest') →
    r' ⟨token :: (more ++ [.blockEnd]), anchors⟩ = .ok (a, rest'.inBlock) ∧
      rest'.tokens <:+ token :: more

/-- The same where no token comes next. -/
def FramesEnd (r r' : Reader α) : Prop :=
  ∀ ⦃anchors a rest'⦄, r ⟨[], anchors⟩ = .ok (a, rest') →
    r' ⟨[.blockEnd], anchors⟩ = .ok (a, rest'.inBlock) ∧ rest'.tokens <:+ []

theorem Frames.framesAt (h : Frames r r') (token : Token) : FramesAt token r r' :=
  fun _ _ _ _ hr => h hr

theorem Frames.framesEnd (h : Frames r r') : FramesEnd r r' := fun _ _ _ hr => h hr

theorem frames_pure (a : α) : Frames (pure a) (pure a) := by
  intro rest b rest' h
  cases h
  exact ⟨rfl, List.suffix_rfl⟩

theorem frames_throw (fault : Fault) (r' : Reader α) : Frames (throw fault) r' := by
  intro rest a rest' h
  cases h

theorem framesAt_throw (token : Token) (fault : Fault) (r' : Reader α) :
    FramesAt token (throw fault) r' := (frames_throw fault r').framesAt token

theorem exists_of_bind_eq_ok {f : α → Reader β} {rest rest'' : Rest} {b : β}
    (h : (r >>= f) rest = .ok (b, rest'')) :
    ∃ a rest', r rest = .ok (a, rest') ∧ f a rest' = .ok (b, rest'') := by
  change (r rest >>= fun result => f result.1 result.2) = _ at h
  cases hr : r rest with
  | error e =>
    rw [hr] at h
    cases h
  | ok result =>
    rw [hr] at h
    exact ⟨result.1, result.2, rfl, h⟩

theorem bind_of_eq_ok {f : α → Reader β} {rest rest' : Rest} {a : α} (h : r rest = .ok (a, rest')) :
    (r >>= f) rest = f a rest' := by
  change (r rest >>= fun result => f result.1 result.2) = _
  rw [h]
  rfl

theorem Frames.bind {f f' : α → Reader β} (h : Frames r r') (hf : ∀ a, Frames (f a) (f' a)) :
    Frames (r >>= f) (r' >>= f') := by
  intro rest b rest'' hrun
  obtain ⟨a, rest', hr, hnext⟩ := exists_of_bind_eq_ok hrun
  obtain ⟨hr', hleft⟩ := h hr
  obtain ⟨hnext', hleft'⟩ := hf a hnext
  exact ⟨(bind_of_eq_ok hr').trans hnext', hleft'.trans hleft⟩

theorem FramesAt.skip {token : Token} (h : Frames r r') :
    FramesAt token (skip >>= fun _ => r) (skip >>= fun _ => r') := by
  intro more anchors a rest' hrun
  obtain ⟨hnext, hleft⟩ := h hrun
  exact ⟨hnext, hleft.trans (List.suffix_cons token more)⟩

theorem Frames.next {f f' : Option Token → Reader α}
    (hsome : ∀ token, FramesAt token (f (some token)) (f' (some token)))
    (hnone : FramesEnd (f none) (f' (some .blockEnd))) :
    Frames (Reader.next >>= f) (Reader.next >>= f') := by
  intro rest a rest' hrun
  obtain ⟨tokens, anchors⟩ := rest
  cases tokens with
  | nil => exact hnone hrun
  | cons token more => exact hsome token hrun

/-- What a reader does without a token may be what it does at most of them. -/
theorem Frames.nextOr {f f' : Option Token → Reader α}
    (hnone : Frames (f none) (f' (some .blockEnd)))
    (hsome : Frames (f none) (f' (some .blockEnd)) →
      ∀ token, FramesAt token (f (some token)) (f' (some token))) :
    Frames (Reader.next >>= f) (Reader.next >>= f') :=
  Frames.next (hsome hnone) hnone.framesEnd

theorem Frames.nextIn {stops : List Token} {f f' : Bool → Reader α}
    (hsome : ∀ token, FramesAt token (f (stops.contains token)) (f' (stops.contains token)))
    (hnone : FramesEnd (f false) (f' (stops.contains .blockEnd))) :
    Frames (Reader.nextIn stops >>= f) (Reader.nextIn stops >>= f') := by
  intro rest a rest' hrun
  obtain ⟨tokens, anchors⟩ := rest
  cases tokens with
  | nil => exact hnone hrun
  | cons token more => exact hsome token hrun

/-- A choice by the next token, which the end of the block does not make another one. -/
theorem Frames.choice {stops : List Token} {f f' : Bool → Reader α}
    (hstops : stops.contains .blockEnd = false)
    (htrue : ∀ token, FramesAt token (f true) (f' true)) (hfalse : Frames (f false) (f' false)) :
    Frames (Reader.nextIn stops >>= f) (Reader.nextIn stops >>= f') := by
  refine Frames.nextIn (fun token => ?_) (hstops ▸ hfalse.framesEnd)
  cases stops.contains token with
  | true => exact htrue token
  | false => exact hfalse.framesAt token

theorem Frames.get {f f' : Rest → Reader α} (h : ∀ rest, Frames (f rest) (f' rest.inBlock)) :
    Frames (MonadState.get >>= f) (MonadState.get >>= f') := by
  intro rest a rest' hrun
  exact h rest hrun

theorem frames_setAnchor (name : List Char) : Frames (setAnchor name) (setAnchor name) := by
  intro rest a rest' h
  cases h
  exact ⟨rfl, List.suffix_rfl⟩

theorem frames_lift (x : Except Fault α) : Frames (liftM x) (liftM x) := by
  intro rest a rest' h
  cases x with
  | error e => cases h
  | ok b =>
    cases h
    exact ⟨rfl, List.suffix_rfl⟩

/-- Properties are the same before the end of a block, which is none. -/
theorem frames_properties (handles : Handles) :
    Frames (properties handles) (properties handles) := by
  refine Frames.next (fun token => ?_) ?_
  · cases token with
    | anchor name =>
      refine FramesAt.skip ((frames_setAnchor name).bind fun number => ?_)
      refine Frames.next (fun token => ?_) (frames_pure _).framesEnd
      cases token with
      | tag text =>
        exact FramesAt.skip ((frames_lift (resolveTag handles text)).bind fun _ => frames_pure _)
      | _ => exact (frames_pure _).framesAt _
    | tag text =>
      refine FramesAt.skip ((frames_lift (resolveTag handles text)).bind fun bytes => ?_)
      refine Frames.next (fun token => ?_) (frames_pure _).framesEnd
      cases token with
      | anchor name =>
        exact FramesAt.skip ((frames_setAnchor name).bind fun _ => frames_pure _)
      | _ => exact (frames_pure _).framesAt _
    | _ => exact (frames_pure _).framesAt _
  · exact (frames_pure _).framesEnd

theorem framesAt_skip (token : Token) : FramesAt token skip skip := by
  intro more anchors a rest' h
  cases h
  exact ⟨rfl, List.suffix_cons token more⟩

theorem frames_separator (isFirst : Bool) : Frames (separator isFirst) (separator isFirst) := by
  cases isFirst with
  | true => exact frames_pure ()
  | false =>
    refine Frames.nextIn (fun token => ?_) (frames_throw _ _).framesEnd
    cases [Token.flowEntry].contains token with
    | true => exact framesAt_skip token
    | false => exact framesAt_throw _ _ _

/-- A reader of nodes and one that takes the same before the end of a block. Where there is no token
there is no node. -/
structure FramesNodes (inner inner' : Bool → Bool → Reader Node) : Prop where
  frames : ∀ inBlock indentless, Frames (inner inBlock indentless) (inner' inBlock indentless)
  needs : ∀ inBlock indentless anchors result,
    inner inBlock indentless ⟨[], anchors⟩ ≠ .ok result

section Parts

variable {inner inner' : Bool → Bool → Reader Node}

theorem FramesNodes.orEmpty (h : FramesNodes inner inner') (inBlock indentless : Bool)
    (stops : List Token) :
    Frames (orEmpty inner inBlock indentless stops) (orEmpty inner' inBlock indentless stops) := by
  refine Frames.nextIn (fun token => ?_) ?_
  · cases stops.contains token with
    | true => exact (frames_pure _).framesAt _
    | false => exact (h.frames _ _).framesAt _
  · intro anchors a rest' hrun
    exact absurd hrun (h.needs _ _ _ _)

theorem FramesNodes.blockItems (h : FramesNodes inner inner') {fuel fuel' : Nat}
    (hfuel : fuel ≤ fuel') : Frames (blockItems inner fuel) (blockItems inner' fuel') := by
  induction fuel generalizing fuel' with
  | zero => exact frames_throw _ _
  | succ fuel ih =>
    obtain ⟨fuel', rfl⟩ := Nat.exists_eq_add_of_le' (Nat.lt_of_lt_of_le (Nat.succ_pos _) hfuel)
    refine Frames.next (fun token => ?_) (frames_throw _ _).framesEnd
    cases token with
    | blockEntry =>
      exact FramesAt.skip ((h.orEmpty _ _ _).bind fun item =>
        (ih (Nat.le_of_succ_le_succ hfuel)).bind fun _ => frames_pure _)
    | blockEnd => exact FramesAt.skip (frames_pure _)
    | _ => exact framesAt_throw _ _ _

theorem FramesNodes.indentlessItems (h : FramesNodes inner inner') {fuel fuel' : Nat}
    (hfuel : fuel ≤ fuel') : Frames (indentlessItems inner fuel) (indentlessItems inner' fuel') := by
  induction fuel generalizing fuel' with
  | zero => exact frames_throw _ _
  | succ fuel ih =>
    obtain ⟨fuel', rfl⟩ := Nat.exists_eq_add_of_le' (Nat.lt_of_lt_of_le (Nat.succ_pos _) hfuel)
    refine Frames.next (fun token => ?_) (frames_pure _).framesEnd
    cases token with
    | blockEntry =>
      exact FramesAt.skip ((h.orEmpty _ _ _).bind fun item =>
        (ih (Nat.le_of_succ_le_succ hfuel)).bind fun _ => frames_pure _)
    | _ => exact (frames_pure _).framesAt _

theorem FramesNodes.valueAfter (h : FramesNodes inner inner') (inBlock : Bool)
    (stops : List Token) :
    Frames (valueAfter inner inBlock stops) (valueAfter inner' inBlock stops) := by
  refine Frames.next (fun token => ?_) (frames_pure _).framesEnd
  cases token with
  | value => exact FramesAt.skip (h.orEmpty _ _ _)
  | _ => exact (frames_pure _).framesAt _

theorem FramesNodes.blockEntries (h : FramesNodes inner inner') {fuel fuel' : Nat}
    (hfuel : fuel ≤ fuel') : Frames (blockEntries inner fuel) (blockEntries inner' fuel') := by
  induction fuel generalizing fuel' with
  | zero => exact frames_throw _ _
  | succ fuel ih =>
    obtain ⟨fuel', rfl⟩ := Nat.exists_eq_add_of_le' (Nat.lt_of_lt_of_le (Nat.succ_pos _) hfuel)
    refine Frames.next (fun token => ?_) (frames_throw _ _).framesEnd
    cases token with
    | key =>
      exact FramesAt.skip ((h.orEmpty _ _ _).bind fun key => (h.valueAfter _ _).bind fun value =>
        (ih (Nat.le_of_succ_le_succ hfuel)).bind fun _ => frames_pure _)
    | blockEnd => exact FramesAt.skip (frames_pure _)
    | _ => exact framesAt_throw _ _ _

/-- Where there is no token nothing goes on behind a node. -/
theorem FramesNodes.framesEnd_bind (h : FramesNodes inner inner') (inBlock indentless : Bool)
    (f : Node → Reader α) (r' : Reader α) : FramesEnd (inner inBlock indentless >>= f) r' := by
  intro anchors a rest' hrun
  obtain ⟨node, rest, hnode, -⟩ := exists_of_bind_eq_ok hrun
  exact absurd hnode (h.needs _ _ _ _)

theorem FramesNodes.pairKey (h : FramesNodes inner inner') :
    Frames (pairKey inner) (pairKey inner') := by
  refine Frames.nextIn (fun token => ?_) ?_
  · cases [Token.value, .flowEntry, .flowSequenceEnd].contains token with
    | true => exact FramesAt.skip (frames_pure _)
    | false => exact (h.frames _ _).framesAt _
  · intro anchors a rest' hrun
    exact absurd hrun (h.needs _ _ _ _)

theorem FramesNodes.flowItems (h : FramesNodes inner inner') {fuel fuel' : Nat}
    (hfuel : fuel ≤ fuel') (isFirst : Bool) :
    Frames (flowItems inner fuel isFirst) (flowItems inner' fuel' isFirst) := by
  induction fuel generalizing fuel' isFirst with
  | zero => exact frames_throw _ _
  | succ fuel ih =>
    obtain ⟨fuel', rfl⟩ := Nat.exists_eq_add_of_le' (Nat.lt_of_lt_of_le (Nat.succ_pos _) hfuel)
    have hmore := ih (Nat.le_of_succ_le_succ hfuel) false
    refine Frames.choice rfl (fun token => FramesAt.skip (frames_pure _)) ?_
    refine (frames_separator isFirst).bind fun _ => Frames.next (fun token => ?_)
      (h.framesEnd_bind _ _ _ _)
    cases token with
    | flowSequenceEnd => exact FramesAt.skip (frames_pure _)
    | key =>
      exact FramesAt.skip (h.pairKey.bind fun key => (h.valueAfter _ _).bind fun value =>
        hmore.bind fun _ => frames_pure _)
    | _ => exact ((h.frames _ _).bind fun item => hmore.bind fun _ => frames_pure _).framesAt _

theorem FramesNodes.flowEntries (h : FramesNodes inner inner') {fuel fuel' : Nat}
    (hfuel : fuel ≤ fuel') (isFirst : Bool) :
    Frames (flowEntries inner fuel isFirst) (flowEntries inner' fuel' isFirst) := by
  induction fuel generalizing fuel' isFirst with
  | zero => exact frames_throw _ _
  | succ fuel ih =>
    obtain ⟨fuel', rfl⟩ := Nat.exists_eq_add_of_le' (Nat.lt_of_lt_of_le (Nat.succ_pos _) hfuel)
    have hmore := ih (Nat.le_of_succ_le_succ hfuel) false
    refine Frames.choice rfl (fun token => FramesAt.skip (frames_pure _)) ?_
    refine (frames_separator isFirst).bind fun _ => Frames.next (fun token => ?_)
      (h.framesEnd_bind _ _ _ _)
    cases token with
    | flowMappingEnd => exact FramesAt.skip (frames_pure _)
    | key =>
      exact FramesAt.skip ((h.orEmpty _ _ _).bind fun key => (h.valueAfter _ _).bind fun value =>
        hmore.bind fun _ => frames_pure _)
    | _ => exact ((h.frames _ _).bind fun item => hmore.bind fun _ => frames_pure _).framesAt _

end Parts

theorem node_nil (handles : Handles) (fuel : Nat) (inBlock indentless : Bool)
    (anchors : List (List Char × Nat)) (result : Node × Rest) :
    node handles fuel inBlock indentless ⟨[], anchors⟩ ≠ .ok result := by
  cases fuel with
  | zero =>
    intro h
    cases h
  | succ fuel =>
    intro h
    cases h

/-- **A node is the same before the end of a block**, with as many steps or more. -/
theorem frames_node (handles : Handles) {fuel fuel' : Nat} (hfuel : fuel ≤ fuel')
    (inBlock indentless : Bool) :
    Frames (node handles fuel inBlock indentless) (node handles fuel' inBlock indentless) := by
  induction fuel generalizing fuel' inBlock indentless with
  | zero => exact frames_throw _ _
  | succ fuel ih =>
    obtain ⟨fuel', rfl⟩ := Nat.exists_eq_add_of_le' (Nat.lt_of_lt_of_le (Nat.succ_pos _) hfuel)
    have hle := Nat.le_of_succ_le_succ hfuel
    have hnodes : FramesNodes (node handles fuel) (node handles fuel') :=
      ⟨fun _ _ => ih hle _ _, fun _ _ _ _ => node_nil _ _ _ _ _ _⟩
    refine Frames.nextOr ((frames_properties handles).bind fun p => ?_) fun hbody token => ?_
    · have hnothing : Frames
          (if p.anchor.isSome || p.tag.isSome then pure (Node.scalar p [] true) else throw .node)
          (if p.anchor.isSome || p.tag.isSome then pure (Node.scalar p [] true) else throw .node) := by
        split
        · exact frames_pure _
        · exact frames_throw _ _
      refine Frames.next (fun token => ?_) hnothing.framesEnd
      cases token with
      | scalar text plain => exact FramesAt.skip (frames_pure _)
      | flowSequenceStart =>
        exact FramesAt.skip ((hnodes.flowItems hle true).bind fun _ => frames_pure _)
      | flowMappingStart =>
        exact FramesAt.skip ((hnodes.flowEntries hle true).bind fun _ => frames_pure _)
      | blockEntry =>
        cases indentless with
        | true => exact ((hnodes.indentlessItems hle).bind fun _ => frames_pure _).framesAt _
        | false => exact hnothing.framesAt _
      | blockSequenceStart =>
        cases inBlock with
        | true => exact FramesAt.skip ((hnodes.blockItems hle).bind fun _ => frames_pure _)
        | false => exact hnothing.framesAt _
      | blockMappingStart =>
        cases inBlock with
        | true => exact FramesAt.skip ((hnodes.blockEntries hle).bind fun _ => frames_pure _)
        | false => exact hnothing.framesAt _
      | _ => exact hnothing.framesAt _
    · cases token with
      | «alias» name =>
        refine FramesAt.skip (Frames.get fun rest => ?_)
        have hlookup : rest.inBlock.anchors.lookup name = rest.anchors.lookup name := rfl
        rw [hlookup]
        cases rest.anchors.lookup name with
        | none => exact frames_throw _ _
        | some number => exact frames_pure _
      | _ => exact hbody.framesAt _

/-! ### Documents -/

/-- Whether a node may start with a token, outside the items of a sequence at the indentation of its
key. -/
def startsNode : Token → Bool
  | .tag _ | .scalar _ _ | .flowSequenceStart | .flowMappingStart | .blockSequenceStart
  | .blockMappingStart => true
  | _ => false

/-- A document without marks is its root. -/
def unmarked (fuel : Nat) : Reader Node :=
  node standardHandles fuel true false >>= fun root => documentEnds fuel >>= fun _ =>
    next >>= fun token => if token.isNone then pure root else throw .severalDocuments

theorem root_of_startsNode {token : Token} (h : startsNode token) (fuel : Nat) (more : List Token)
    (anchors : List (List Char × Nat)) :
    root fuel ⟨token :: more, anchors⟩ = unmarked fuel ⟨token :: more, anchors⟩ := by
  cases token <;> first | rfl | cases h

theorem documentEnds_of_notMem {tokens : List Token} (h : .documentEnd ∉ tokens) (fuel : Nat)
    (anchors : List (List Char × Nat)) :
    documentEnds fuel ⟨tokens, anchors⟩ = .ok ((), ⟨tokens, anchors⟩) := by
  cases fuel with
  | zero => rfl
  | succ fuel =>
    have hnext : nextIn [.documentEnd] ⟨tokens, anchors⟩ = .ok (false, ⟨tokens, anchors⟩) := by
      cases tokens with
      | nil => rfl
      | cons token more =>
        have hne : token ≠ .documentEnd := fun heq => h (heq ▸ List.mem_cons_self)
        show Except.ok ([Token.documentEnd].contains token, _) = _
        simp [hne]
    exact bind_of_eq_ok hnext

/-- The root of a document without marks takes all its tokens. -/
theorem node_of_unmarked {tokens : List Token} {fuel : Nat} {root : Node} {rest : Rest}
    (hends : .documentEnd ∉ tokens) (h : unmarked fuel ⟨tokens, []⟩ = .ok (root, rest)) :
    ∃ anchors, node standardHandles fuel true false ⟨tokens, []⟩ = .ok (root, ⟨[], anchors⟩) := by
  obtain ⟨node, rest', hnode, h⟩ := exists_of_bind_eq_ok h
  obtain ⟨-, hleft⟩ := frames_node standardHandles (Nat.le_refl _) true false hnode
  obtain ⟨left, anchors⟩ := rest'
  rw [bind_of_eq_ok (documentEnds_of_notMem (fun hmem => hends (hleft.subset hmem)) fuel anchors)]
    at h
  cases left with
  | nil =>
    cases h
    exact ⟨anchors, hnode⟩
  | cons token more => cases h

/-- The sequence of one item that is read from the tokens of the item. -/
theorem node_item {tokens : List Token} {token : Token} {more : List Token}
    (htokens : tokens = token :: more) (hstart : startsNode token) {fuel fuel' : Nat}
    (hfuel : fuel ≤ fuel') {item : Node} {anchors : List (List Char × Nat)}
    (h : node standardHandles fuel true false ⟨tokens, []⟩ = .ok (item, ⟨[], anchors⟩)) :
    node standardHandles (fuel' + 3) true false
        ⟨.blockSequenceStart :: .blockEntry :: (tokens ++ [.blockEnd]), []⟩ =
      .ok (.sequence .none [item], ⟨[], anchors⟩) := by
  have hitem : node standardHandles (fuel' + 2) true false ⟨tokens ++ [.blockEnd], []⟩ =
      .ok (item, ⟨[.blockEnd], anchors⟩) :=
    (frames_node standardHandles (Nat.le_trans hfuel (Nat.le_add_right fuel' 2)) true false h).1
  have hnotStop : [Token.blockEntry, .blockEnd].contains token = false := by
    cases token <;> first | rfl | cases hstart
  have horEmpty : orEmpty (node standardHandles (fuel' + 2)) true false [.blockEntry, .blockEnd]
      ⟨tokens ++ [.blockEnd], []⟩ = .ok (item, ⟨[.blockEnd], anchors⟩) := by
    rw [← hitem, htokens]
    show (if [Token.blockEntry, .blockEnd].contains token then _ else _ : Reader Node) _ = _
    rw [hnotStop]
    rfl
  have hitems : blockItems (node standardHandles (fuel' + 2)) (fuel' + 2)
      ⟨.blockEntry :: (tokens ++ [.blockEnd]), []⟩ = .ok ([item], ⟨[], anchors⟩) := by
    show (orEmpty (node standardHandles (fuel' + 2)) true false [.blockEntry, .blockEnd] >>=
      fun item => blockItems (node standardHandles (fuel' + 2)) (fuel' + 1) >>= fun more =>
        pure (item :: more)) ⟨tokens ++ [.blockEnd], []⟩ = _
    rw [bind_of_eq_ok horEmpty]
    rfl
  show (blockItems (node standardHandles (fuel' + 2)) (fuel' + 2) >>= fun items =>
    pure (Node.sequence .none items)) ⟨.blockEntry :: (tokens ++ [.blockEnd]), []⟩ = _
  rw [bind_of_eq_ok hitems]
  rfl

end Reader

namespace Node

open Reader

/-- **Tokens behind the mark of an item** are the sequence of what they are alone. -/
theorem ofTokens_item {tokens : List Token} {token : Token} {more : List Token}
    (htokens : tokens = token :: more) (hstart : startsNode token) (hends : .documentEnd ∉ tokens)
    {item : Node} (h : Node.ofTokens tokens = .ok item) :
    Node.ofTokens (.blockSequenceStart :: .blockEntry :: (tokens ++ [.blockEnd])) =
      .ok (.sequence .none [item]) := by
  have hroot : ∃ rest, root (2 * tokens.length + 2) ⟨tokens, []⟩ = .ok (item, rest) := by
    change (root (2 * tokens.length + 2) ⟨tokens, []⟩).map Prod.fst = _ at h
    cases hresult : root (2 * tokens.length + 2) ⟨tokens, []⟩ with
    | error e =>
      rw [hresult] at h
      cases h
    | ok result =>
      rw [hresult] at h
      cases h
      exact ⟨result.2, rfl⟩
  obtain ⟨rest, hroot⟩ := hroot
  rw [htokens, root_of_startsNode hstart, ← htokens] at hroot
  obtain ⟨anchors, hnode⟩ := node_of_unmarked hends hroot
  have hsequence := node_item htokens hstart
    (Nat.le_add_right (2 * tokens.length + 2) 3) hnode
  have hmore : 2 * (.blockSequenceStart :: .blockEntry :: (tokens ++ [.blockEnd])).length + 2 =
      2 * tokens.length + 2 + 6 := by
    simp
    omega
  show (root (2 * _ + 2) _).map Prod.fst = _
  rw [hmore, root_of_startsNode rfl, unmarked, bind_of_eq_ok hsequence,
    bind_of_eq_ok (documentEnds_of_notMem List.not_mem_nil _ anchors)]
  rfl

/-- The scalar behind a tag, if the tag stands for anything. -/
theorem ofTokens_taggedScalar (tag : TagText) (text : List Char) (plain : Bool) :
    Node.ofTokens [.tag tag, .scalar text plain] =
      (resolveTag standardHandles tag).map fun bytes => .scalar ⟨none, some bytes⟩ text plain := by
  have hproperties : Reader.properties standardHandles ⟨[.tag tag, .scalar text plain], []⟩ =
      (resolveTag standardHandles tag).map fun bytes =>
        (⟨none, some bytes⟩, ⟨[.scalar text plain], []⟩) := by
    show ((liftM (resolveTag standardHandles tag) : Reader (List UInt8))
      ⟨[.scalar text plain], []⟩).bind _ = _
    cases resolveTag standardHandles tag <;> rfl
  have hnode : node standardHandles 6 true false ⟨[.tag tag, .scalar text plain], []⟩ =
      (resolveTag standardHandles tag).map fun bytes =>
        (.scalar ⟨none, some bytes⟩ text plain, ⟨[], []⟩) := by
    rw [node]
    show (Reader.properties standardHandles ⟨[.tag tag, .scalar text plain], []⟩).bind _ = _
    rw [hproperties]
    cases resolveTag standardHandles tag <;> rfl
  show (root 6 ⟨[.tag tag, .scalar text plain], []⟩).map Prod.fst = _
  rw [root_of_startsNode rfl, unmarked]
  show ((node standardHandles 6 true false ⟨[.tag tag, .scalar text plain], []⟩).bind _).map _ = _
  rw [hnode]
  cases resolveTag standardHandles tag <;> rfl

end Node

end OperatorBundle.Yaml
