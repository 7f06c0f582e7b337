import Sukkula.Wormhole.Welcome

/-! # The library behind the guard

The guard and the library stay in step: both skip the same messages and take the
same phases in the same order, so the guard knows the place in which a message
will be read. Nothing that passes makes the library panic.
-/

namespace Sukkula.Wormhole

open Json (integer)
open LocalSend (ErrorInfo)
open Transition

section Reading

variable {v w : Json} {key : Str}

theorem asStr_unique (h : Config.unique v = some w) : asStr w = asStr v := by
  cases v with
  | null | bool | number | string => rw [← Option.some.inj h]
  | array items =>
    obtain ⟨ws, -, rfl⟩ := Option.map_eq_some_iff.mp h
    rfl
  | object entries =>
    obtain ⟨m, -, rfl⟩ := Option.map_eq_some_iff.mp h
    rfl

theorem filter_key_eq {entries : List (Str × Json)} (hn : (entries.map Prod.fst).Nodup) :
    (entries.filter fun e => e.1 = key) = ((entries.lookup key).map fun v => (key, v)).toList := by
  induction entries with
  | nil => rfl
  | cons e entries ih =>
    obtain ⟨k, v⟩ := e
    rw [List.map_cons, List.nodup_cons] at hn
    by_cases hk : k = key
    · subst hk
      have hrest : (entries.filter fun e => e.1 = k) = [] := by
        rw [List.filter_eq_nil_iff]
        intro e he hkey
        exact hn.1 (List.mem_map.mpr ⟨e, he, of_decide_eq_true hkey⟩)
      simp [hrest]
    · have hk' : (key == k) = false := beq_false_of_ne (Ne.symm hk)
      simp [List.lookup_cons, hk, hk', ih hn.2]

/-- A message without a repeated key reads the same to the guard and to the library. -/
theorem once_of_unique (h : Config.unique v = some w) :
    once key v = (get key w).bind asStr := by
  have hr : ¬ v.Repeats := fun hr => by simp [Config.unique_eq_none.mpr hr] at h
  cases v with
  | null | bool | number | string =>
    rw [← Option.some.inj h]
    rfl
  | array items =>
    obtain ⟨ws, -, rfl⟩ := Option.map_eq_some_iff.mp h
    rfl
  | object entries =>
    obtain ⟨m, hm, hnodup, hperm⟩ := Config.unique_object hr
    obtain rfl := Option.some.inj (hm.symm.trans h)
    have hn : (entries.map Prod.fst).Nodup := by
      by_contra hdup
      exact hr (Json.repeats_object.mpr (.inl hdup))
    rw [get_unique h, once, filter_key_eq hn, get]
    cases hl : entries.lookup key with
    | none => rfl
    | some u =>
      obtain ⟨x, -, hx⟩ := get_unique_some h (show get key (.object entries) = some u from hl)
      simp [hx, asStr_unique hx]

end Reading

section Inversion

variable {parse : Str → Option Json} {v : Json} {seen seen' : Conversation} {text : Str}

/-- A peer message that passes: one that the library skips, or one in its place. -/
theorem checkPeerMessage_ok (h : checkPeerMessage v seen = .ok seen') :
    ∃ side phase body ours : Str, (get "side".toList v).bind asStr = some side ∧
      (get "phase".toList v).bind asStr = some phase ∧
      (get "body".toList v).bind asStr = some body ∧ shapely phase body ∧ seen.ours = some ours ∧
      ((side = ours ∨ phase ∈ seen.taken) ∧ seen' = seen ∨
        ¬ (side = ours ∨ phase ∈ seen.taken) ∧ inPlace seen.taken.length phase ∧
          seen' = { seen with taken := seen.taken ++ [phase] }) := by
  obtain ⟨side, hside, h⟩ := bind_eq_ok.mp h
  obtain ⟨⟨⟩, -, h⟩ := bind_eq_ok.mp h
  obtain ⟨phase, hphase, h⟩ := bind_eq_ok.mp h
  obtain ⟨body, hbody, h⟩ := bind_eq_ok.mp h
  obtain ⟨⟨⟩, -, h⟩ := bind_eq_ok.mp h
  obtain ⟨⟨⟩, hshape, h⟩ := bind_eq_ok.mp h
  obtain ⟨ours, hours, h⟩ := bind_eq_ok.mp h
  refine ⟨side, phase, body, ours, okOr_eq_ok.mp hside, okOr_eq_ok.mp hphase, okOr_eq_ok.mp hbody,
    ensure_eq_ok.mp hshape, okOr_eq_ok.mp hours, ?_⟩
  by_cases hskip : side = ours ∨ phase ∈ seen.taken
  · rw [if_pos hskip] at h
    exact .inl ⟨hskip, (Except.ok.inj h).symm⟩
  · rw [if_neg hskip] at h
    obtain ⟨⟨⟩, hplace, h⟩ := bind_eq_ok.mp h
    exact .inr ⟨hskip, ensure_eq_ok.mp hplace, (Except.ok.inj h).symm⟩

def Conversation.count (seen : Conversation) (text : Str) : Conversation :=
  { seen with messages := seen.messages + 1, bytes := seen.bytes + text.len }

/-- A message that passes: a welcome that asks for little, a peer message, or neither. -/
theorem checkServerMessage_ok (h : checkServerMessage parse text seen = (.ok (), seen')) :
    seen.messages < maxServerMessages ∧ seen.bytes + text.len ≤ maxServerBytes ∧
    ∃ v type, strictJson parse text = some v ∧ (get "type".toList v).bind asStr = some type ∧
      (type = "welcome".toList ∧ checkWelcome v = .ok () ∧ seen' = seen.count text ∨
        type = "message".toList ∧ checkPeerMessage v (seen.count text) = .ok seen' ∨
        type ≠ "welcome".toList ∧ type ≠ "message".toList ∧ seen' = seen.count text) := by
  unfold checkServerMessage at h
  simp only [] at h
  by_cases hmany : maxServerMessages < seen.messages + 1 ∨ maxServerBytes < seen.bytes + text.len
  · rw [if_pos hmany] at h
    cases h
  rw [if_neg hmany] at h
  refine ⟨by omega, by omega, ?_⟩
  cases hv : strictJson parse text with
  | none => simp [hv] at h
  | some v =>
    cases htype : (get "type".toList v).bind asStr with
    | none =>
      simp only [hv, htype] at h
      cases h
    | some type =>
      refine ⟨v, type, rfl, htype, ?_⟩
      simp only [hv, htype] at h
      by_cases hw : type = "welcome".toList
      · rw [if_pos hw] at h
        exact .inl ⟨hw, (Prod.mk.inj h).1, (Prod.mk.inj h).2.symm⟩
      rw [if_neg hw] at h
      by_cases hm : type = "message".toList
      · rw [if_pos hm] at h
        cases hp : checkPeerMessage v (seen.count text) with
        | error e =>
          simp only [Conversation.count] at hp
          simp [hp] at h
        | ok s =>
          simp only [Conversation.count] at hp
          rw [hp] at h
          exact .inr (.inl ⟨hm, congrArg Except.ok (Prod.mk.inj h).2⟩)
      · rw [if_neg hm] at h
        exact .inr (.inr ⟨hw, hm, (Prod.mk.inj h).2.symm⟩)

theorem checkServerMessage_error {e : ErrorInfo}
    (h : checkServerMessage parse text seen = (.error e, seen')) : seen' = seen.count text := by
  unfold checkServerMessage at h
  simp only [] at h
  split at h
  · exact (Prod.mk.inj h).2.symm
  · split at h
    · exact (Prod.mk.inj h).2.symm
    · split at h
      · exact (Prod.mk.inj h).2.symm
      · split at h
        · exact (Prod.mk.inj h).2.symm
        · split at h
          · split at h
            · cases h
            · exact (Prod.mk.inj h).2.symm
          · cases h

end Inversion

namespace Mailbox

variable {parse : Str → Option Json} {value : Json → Bool} {s s' : Mailbox} {text : Str}

/-- A message in its place, and right by itself, is one that the library can use there. -/
theorem panics_eq_false {n : ℕ} {phase body : Str} (hshape : shapely phase body)
    (hplace : inPlace n phase) : panics n phase body = false := by
  match n with
  | 0 => rfl
  | 1 =>
    have hv : phase = "version".toList := of_decide_eq_true hplace
    subst hv
    have hlen : minSealedBodyHex ≤ body.len := of_decide_eq_true hshape
    have : 24 ≤ body.len / 2 := by
      simp only [minSealedBodyHex] at hlen
      omega
    exact decide_eq_false (Nat.not_lt_of_le this)
  | n + 2 =>
    obtain ⟨hp, hv⟩ := of_decide_eq_true hplace
    simp only [shapely, if_neg hp, if_neg hv, Bool.and_eq_true, decide_eq_true_eq] at hshape
    obtain ⟨⟨-, hu⟩, hlen⟩ := hshape
    have : 24 ≤ body.len / 2 := by
      simp only [minSealedBodyHex] at hlen
      omega
    simp [panics, hu, this]

/-- The guard and the library agree on what was taken, and nothing passed did harm. -/
structure Sound (parse : Str → Option Json) (value : Json → Bool) (s : Mailbox) : Prop where
  ours : ∀ side, s.guard.ours = some side → s.library.side = some side
  processed : s.library.processed = s.guard.taken
  calm : s.library.panicked = false
  messages : s.passed.length ≤ s.guard.messages ∧ s.passed.length ≤ maxServerMessages
  bytes : (s.passed.map Str.len).sum ≤ s.guard.bytes ∧ (s.passed.map Str.len).sum ≤ maxServerBytes
  modest : ∀ text ∈ s.passed, ∀ v m, parse text = some v → readWelcome value v = some m →
    ¬ ByPosition v → Modest m

theorem sound_start : Sound parse value {} where
  ours := by simp
  processed := rfl
  calm := rfl
  messages := by simp
  bytes := by simp
  modest := by simp

/-- The side of a `bind`. -/
def bindSide (parse : Str → Option Json) (text side : Str) : Prop :=
  ∃ v, parse text = some v ∧ (getLast "type".toList v).bind asStr = some "bind".toList ∧
    (getLast "side".toList v).bind asStr = some side

theorem noteLibraryMessage_cases (parse : Str → Option Json) (seen : Conversation) (text : Str) :
    noteLibraryMessage parse seen text = seen ∨
      ∃ side, seen.ours = none ∧ bindSide parse text side ∧
        noteLibraryMessage parse seen text = { seen with ours := some side } := by
  unfold noteLibraryMessage
  by_cases ho : seen.ours.isSome
  · exact .inl (if_pos ho)
  rw [if_neg ho]
  cases hv : parse text with
  | none => exact .inl rfl
  | some v =>
    by_cases ht : (getLast "type".toList v).bind asStr = some "bind".toList
    · simp only [ht, ne_eq, not_true_eq_false, if_false]
      cases hs : (getLast "side".toList v).bind asStr with
      | none => exact .inl rfl
      | some side =>
        by_cases hok : side ≠ [] ∧ side.len ≤ maxSideBytes
        · exact .inr ⟨side, by simpa using ho, ⟨v, hv, ht, hs⟩, if_pos hok⟩
        · exact .inl (if_neg hok)
    · exact .inl (if_pos ht)

theorem send_cases {l l' : Library} (h : l.send (parse text) = some l') :
    (l' = l ∧ ∀ side, ¬ bindSide parse text side) ∨
      ∃ side, l.side = none ∧ bindSide parse text side ∧ l' = { l with side := some side } := by
  unfold Library.send at h
  cases hv : parse text with
  | none =>
    rw [hv] at h
    refine .inl ⟨(Option.some.inj h).symm, ?_⟩
    rintro side ⟨v, hv', -⟩
    simp [hv] at hv'
  | some v =>
    simp only [hv] at h
    by_cases ht : (getLast "type".toList v).bind asStr = some "bind".toList
    · rw [if_neg (not_not_intro ht)] at h
      cases hl : l.side with
      | some o =>
        simp only [hl] at h
        cases h
      | none =>
        cases hs : (getLast "side".toList v).bind asStr with
        | none =>
          simp only [hl, hs] at h
          cases h
        | some side =>
          simp only [hl, hs] at h
          split at h
          · cases h
          · exact .inr ⟨side, rfl, ⟨v, hv, ht, hs⟩, (Option.some.inj h).symm⟩
    · rw [if_pos ht] at h
      refine .inl ⟨(Option.some.inj h).symm, ?_⟩
      rintro side ⟨v', hv', ht', -⟩
      obtain rfl := Option.some.inj (hv.symm.trans hv')
      exact ht ht'

theorem Sound.library (h : Sound parse value s) {l : Library}
    (hl : s.library.send (parse text) = some l) :
    Sound parse value { s with library := l, guard := noteLibraryMessage parse s.guard text } := by
  rcases send_cases hl with ⟨rfl, hnot⟩ | ⟨side, hside, hbind, rfl⟩
  · rcases noteLibraryMessage_cases parse s.guard text with hg | ⟨side, -, hbind, -⟩
    · rw [hg]
      exact ⟨h.ours, h.processed, h.calm, h.messages, h.bytes, h.modest⟩
    · exact absurd hbind (hnot side)
  · rcases noteLibraryMessage_cases parse s.guard text with hg | ⟨side', -, hbind', hg⟩
    · rw [hg]
      refine ⟨fun o ho => ?_, h.processed, h.calm, h.messages, h.bytes, h.modest⟩
      have := h.ours o ho
      simp [hside] at this
    · rw [hg]
      refine ⟨fun o ho => ?_, h.processed, h.calm, h.messages, h.bytes, h.modest⟩
      obtain ⟨v, hv, -, hs⟩ := hbind
      obtain ⟨v', hv', -, hs'⟩ := hbind'
      obtain rfl := Option.some.inj (hv.symm.trans hv')
      exact hs.symm.trans (hs'.trans ho)

theorem read_of_unique {l : Library} {v w : Json} (h : Config.unique v = some w) :
    l.read v = l.take ((get "type".toList w).bind asStr) ((get "side".toList w).bind asStr)
      ((get "phase".toList w).bind asStr) ((get "body".toList w).bind asStr) := by
  simp only [Library.read, once_of_unique h]

theorem read_other {l : Library} {v w : Json} {type : Str} (h : Config.unique v = some w)
    (ht : (get "type".toList w).bind asStr = some type) (hm : type ≠ "message".toList) :
    l.read v = l := by
  rw [read_of_unique h, ht]
  unfold Library.take
  split
  · rename_i type' _ _ _ heq _ _ _
    obtain rfl := Option.some.inj heq
    rw [if_pos (.inl hm)]
  · rfl

/-- A peer message is skipped by both, or taken by both without harm. -/
theorem Sound.read_peer (h : Sound parse value s) {guard : Conversation} {v w : Json}
    (hu : Config.unique v = some w)
    (ht : (get "type".toList w).bind asStr = some "message".toList)
    (hpeer : checkPeerMessage w (s.guard.count text) = .ok guard) :
    guard.messages = s.guard.messages + 1 ∧ guard.bytes = s.guard.bytes + text.len ∧
      guard.ours = s.guard.ours ∧ s.library.read v =
      { s.library with processed := guard.taken } := by
  obtain ⟨side, phase, body, ours, hside, hphase, hbody, hshape, hours, hcases⟩ :=
    checkPeerMessage_ok hpeer
  have hlib : s.library.side = some ours := h.ours ours hours
  have hseen : (s.guard.count text).taken = s.guard.taken := rfl
  have hread : ("message".toList ≠ "message".toList ∨ s.library.side = some side ∨
      phase ∈ s.library.processed) ↔ side = ours ∨ phase ∈ s.guard.taken := by
    simp [hlib, h.processed, eq_comm]
  rw [read_of_unique hu, ht, hside, hphase, hbody, Library.take]
  rw [hseen] at hcases
  rcases hcases with ⟨hskip, rfl⟩ | ⟨hnew, hplace, rfl⟩
  · refine ⟨rfl, rfl, rfl, ?_⟩
    simp only [if_pos (hread.mpr hskip), hseen, ← h.processed]
  · refine ⟨rfl, rfl, rfl, ?_⟩
    simp only [if_neg (mt hread.mp hnew)]
    rw [h.processed, panics_eq_false hshape hplace, Bool.or_false]

theorem Sound.passed (h : Sound parse value s) {guard : Conversation}
    (hcheck : checkServerMessage parse text s.guard = (.ok (), guard)) :
    Sound parse value { s with
      guard
      library := (parse text).elim s.library s.library.read
      passed := s.passed ++ [text] } := by
  obtain ⟨hmsgs, hbytes, w, type, hw, ht, hcases⟩ := checkServerMessage_ok hcheck
  obtain ⟨v, hv, hu⟩ := Option.bind_eq_some_iff.mp hw
  have hcount : guard.messages = s.guard.messages + 1 ∧ guard.bytes = s.guard.bytes + text.len ∧
      guard.ours = s.guard.ours ∧ s.library.read v =
      { s.library with processed := guard.taken } := by
    have hsame : { s.library with processed := s.guard.taken } = s.library := by rw [← h.processed]
    rcases hcases with ⟨rfl, -, rfl⟩ | ⟨rfl, hpeer⟩ | ⟨-, hne, rfl⟩
    · exact ⟨rfl, rfl, rfl, (read_other hu ht (by decide)).trans hsame.symm⟩
    · exact h.read_peer hu ht hpeer
    · exact ⟨rfl, rfl, rfl, (read_other hu ht hne).trans hsame.symm⟩
  have hmodest : ∀ m, readWelcome value v = some m → ¬ ByPosition v → Modest m := by
    intro m hm hpos
    rcases hcases with ⟨-, hcheck, -⟩ | ⟨rfl, -⟩ | ⟨hne, -⟩
    · exact modest_of_checkWelcome hu ht hcheck hpos hm
    · exact absurd (type_of_readWelcome hu ht hm) (by decide)
    · exact absurd (type_of_readWelcome hu ht hm) hne
  have hm := h.messages
  have hb := h.bytes
  rw [hv]
  constructor
  · intro side hside
    simp only [Option.elim_some, hcount.2.2.2]
    exact h.ours side (hcount.2.2.1 ▸ hside)
  · simp [hcount.2.2.2]
  · simpa [hcount.2.2.2] using h.calm
  · simp only [List.length_append, List.length_singleton]
    omega
  · simp only [List.map_append, List.map_cons, List.map_nil, List.sum_append, List.sum_cons,
      List.sum_nil, add_zero]
    omega
  · intro t htext u m hu' hm
    rcases List.mem_append.mp htext with htext | htext
    · exact h.modest t htext u m hu' hm
    · obtain rfl := List.mem_singleton.mp htext
      obtain rfl := Option.some.inj (hv.symm.trans hu')
      exact hmodest m hm

theorem Sound.step {a : Act} (h : Sound parse value s) (hs : step parse s a = some s') :
    Sound parse value s' := by
  cases a with
  | library text =>
    simp only [Mailbox.step] at hs
    split at hs
    · cases hs
    · obtain ⟨l, hl, rfl⟩ := Option.map_eq_some_iff.mp hs
      exact h.library hl
  | server text =>
    simp only [Mailbox.step] at hs
    split at hs
    · cases hs
    · split at hs
      · rename_i guard hcheck
        obtain rfl := Option.some.inj hs
        exact h.passed hcheck
      · rename_i e guard hcheck
        obtain rfl := Option.some.inj hs
        obtain rfl := checkServerMessage_error hcheck
        exact ⟨h.ours, h.processed, h.calm, ⟨h.messages.1.trans (Nat.le_succ _), h.messages.2⟩,
          ⟨h.bytes.1.trans (Nat.le_add_right _ _), h.bytes.2⟩, h.modest⟩

/-- On every run of a connection: the library has not panicked and has taken what the guard says,
little enough was passed on, no welcome passed on asks the library for much unless it is given as
an array, and a message that closes the connection was not taken. -/
theorem guarded (value : Json → Bool) {as : List Act}
    (hrun : exec (step parse) {} as = some s) :
    s.library.panicked = false ∧ s.library.processed = s.guard.taken ∧
    s.passed.length ≤ maxServerMessages ∧ (s.passed.map Str.len).sum ≤ maxServerBytes ∧
    (∀ text ∈ s.passed, ∀ v m, parse text = some v → readWelcome value v = some m →
      ¬ ByPosition v → Modest m) ∧
    ∀ text s', step parse s (.server text) = some s' → s'.closed →
      s'.guard.taken = s.guard.taken ∧ s'.passed = s.passed := by
  have h : Sound parse value s := exec_invariant (fun _ _ _ h hs => h.step hs) sound_start hrun
  refine ⟨h.calm, h.processed, h.messages.2, h.bytes.2, h.modest, ?_⟩
  intro text s' hs hclosed
  simp only [step] at hs
  split at hs
  · cases hs
  · rename_i hopen
    split at hs
    · obtain rfl := Option.some.inj hs
      exact absurd hclosed hopen
    · rename_i e guard hcheck
      obtain rfl := Option.some.inj hs
      obtain rfl := checkServerMessage_error hcheck
      exact ⟨rfl, rfl⟩

/-- The texts of a short exchange, and what they read as. -/
def bindText : Str := "\x7b\"type\":\"bind\",\"appid\":\"a\",\"side\":\"us\"\x7d".toList

def bindJson : Json :=
  .object [("type".toList, .string "bind".toList), ("appid".toList, .string "a".toList),
    ("side".toList, .string "us".toList)]

def hashcashText (bits : Str) : Str :=
  "\x7b\"none\":null,\"hashcash\":\x7b\"bits\":".toList ++ bits ++
    ",\"resource\":\"r\"\x7d\x7d".toList

def hashcashJson (bits : ℤ) : Json :=
  .object [("none".toList, .null), ("hashcash".toList,
    .object [("bits".toList, integer bits), ("resource".toList, .string "r".toList)])]

def welcomeText (welcome : Str) : Str :=
  "\x7b\"type\":\"welcome\",\"welcome\":".toList ++ welcome ++ "\x7d".toList

def welcomeJson (welcome : Json) : Json :=
  .object [("type".toList, .string "welcome".toList), ("welcome".toList, welcome)]

def modestText : Str :=
  welcomeText ("\x7b\"permission-required\":".toList ++ hashcashText "6".toList ++ "\x7d".toList)

def modestJson : Json := welcomeJson (.object [("permission-required".toList, hashcashJson 6)])

def peerText (phase body : Str) : Str :=
  "\x7b\"type\":\"message\",\"side\":\"them\",\"phase\":\"".toList ++ phase ++
    "\",\"body\":\"".toList ++ body ++ "\"\x7d".toList

def sealed : Str := List.replicate 80 'a'

def peerJson (phase body : Str) : Json :=
  .object [("type".toList, .string "message".toList), ("side".toList, .string "them".toList),
    ("phase".toList, .string phase), ("body".toList, .string body)]

def shortParse (text : Str) : Option Json :=
  [(bindText, bindJson), (modestText, modestJson),
    (peerText "pake".toList "7b7d".toList, peerJson "pake".toList "7b7d".toList),
    (peerText "version".toList sealed, peerJson "version".toList sealed),
    (peerText "0".toList sealed, peerJson "0".toList sealed),
    (peerText "x".toList "7b7d".toList, peerJson "x".toList "7b7d".toList)].lookup text

/-- A welcome that asks for six bits, the peer's key exchange and its first message pass; one
that the library would panic on closes the connection. -/
def shortExchange : List Act :=
  [.server modestText, .library bindText, .server (peerText "pake".toList "7b7d".toList),
    .server (peerText "version".toList sealed), .server (peerText "0".toList sealed),
    .server (peerText "pake".toList "7b7d".toList), .server (peerText "x".toList "7b7d".toList)]

def sixBits : WelcomeMessage := ⟨none, none, none, some ⟨false, some ⟨6, "r".toList⟩⟩⟩

theorem guarded_short : ∃ s, exec (step shortParse) {} shortExchange = some s ∧
    s.library.panicked = false ∧ s.library.processed = s.guard.taken ∧
    s.guard.taken = ["pake".toList, "version".toList, "0".toList] ∧ s.passed.length = 5 ∧
    s.closed ∧ modestText ∈ s.passed ∧ shortParse modestText = some modestJson ∧
    readWelcome (fun _ => true) modestJson = some sixBits ∧ Modest sixBits := by
  have hrun : (exec (step shortParse) {} shortExchange).map
      (fun s => (s.guard.taken, s.passed.length, s.closed, decide (modestText ∈ s.passed))) =
      some (["pake".toList, "version".toList, "0".toList], 5, true, true) := by decide +kernel
  obtain ⟨s, hs, he⟩ := Option.map_eq_some_iff.mp hrun
  obtain ⟨hcalm, hprocessed, -, -, hmodest, -⟩ := guarded (fun _ => true) hs
  have hpassed : modestText ∈ s.passed := of_decide_eq_true (congrArg (·.2.2.2) he)
  have hparse : shortParse modestText = some modestJson := rfl
  have hread : readWelcome (fun _ => true) modestJson = some sixBits := rfl
  have hobject : ¬ ByPosition modestJson := by
    rintro ⟨items, hitems⟩
    cases hitems
  exact ⟨s, hs, hcalm, hprocessed, congrArg Prod.fst he, congrArg (·.2.1) he, congrArg (·.2.2.1) he,
    hpassed, hparse, hread, hmodest _ hpassed _ _ hparse hread hobject⟩

def arrayText : Str :=
  welcomeText ("[null,null,null,".toList ++ hashcashText "64".toList ++ "]".toList)

def arrayJson : Json := welcomeJson (.array [.null, .null, .null, hashcashJson 64])

def arrayParse (text : Str) : Option Json := if text = arrayText then some arrayJson else none

def sixtyFourBits : WelcomeMessage := ⟨none, none, none, some ⟨false, some ⟨64, "r".toList⟩⟩⟩

/-- A welcome given as an array passes unread, and the library reads 64 bits from it. -/
theorem welcome_by_position : ¬ ∀ (parse : Str → Option Json) (value : Json → Bool)
    (as : List Act) (s : Mailbox), exec (step parse) {} as = some s →
      ∀ text ∈ s.passed, ∀ v m, parse text = some v → readWelcome value v = some m →
        Modest m := by
  intro h
  have hrun : (exec (step arrayParse) {} [.server arrayText]).map (·.passed) =
      some [arrayText] := by decide +kernel
  obtain ⟨s, hs, hpassed⟩ := Option.map_eq_some_iff.mp hrun
  have hmem : arrayText ∈ s.passed := by simp [hpassed]
  have hread : readWelcome (fun _ => true) arrayJson = some sixtyFourBits := rfl
  have hbits := h _ (fun _ => true) _ s hs _ hmem arrayJson _ (if_pos rfl) hread _ rfl _ rfl
  exact absurd hbits.1 (by decide)

end Mailbox

end Sukkula.Wormhole
