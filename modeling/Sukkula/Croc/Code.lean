import Sukkula.Config.Servers
import Sukkula.Croc.EffList
import Sukkula.Croc.PakeKey
import Sukkula.Library.BigEndian
import Sukkula.Library.Hex

/-! # croc codes

A code gives the room the two sides meet in and the password of their exchange.
Which part is which depends on its shape, and one word of the list has a hyphen,
so that reading three words is a search. Ours read the same by croc 10's rule,
and say which public relay they belong to.
-/

namespace Sukkula.Croc

open Str LocalSend

def minCodeBytes : ℕ := 6

def maxCodeBytes : ℕ := 128

section Shape

/-- Some parts of a code with the hyphens between them, as a slice of the code itself. -/
def span (code : Str) (parts : List Str) (start stop : ℕ) : Option Str :=
  if start ≤ stop ∧ stop ≤ parts.length then
    let offset := ((parts.take start).map fun p => len p + 1).sum
    let length := (((parts.drop start).take (stop - start)).map len).sum + (stop - start - 1)
    code.getRange offset (offset + length)
  else none

/-- So many words of the list from the parts that are left. -/
def search (code : Str) (parts : List Str) : ℕ → ℕ → Option (List Str)
  | 0, start => if start = parts.length then some [] else none
  | count + 1, start => (List.range' (start + 1) (parts.length - start)).findSome? fun stop => do
      let word ← span code parts start stop
      if word ∈ effWords then (search code parts count stop).map (word :: ·) else none

/-- The code as exactly `count` words of the list. -/
def effSequence (code : Str) (count : ℕ) : Option (List Str) :=
  let parts := code.splitOn '-'
  if parts.length < count ∨ count * 2 < parts.length then none else search code parts count 0

/-- The code as exactly `count` words of `a` to `z`. -/
def lowercaseWords (code : Str) (count : ℕ) : Option (List Str) :=
  let words := code.splitOn '-'
  if words.length = count ∧ words.all isWord then some words else none

/-- The room selector and the password of a code, by its shape. -/
def split (code : Str) : Str × Str :=
  match (effSequence code 3).or (lowercaseWords code 3) with
  | some words => (words.head?.getD [], join '-' words.tail)
  | none => match lowercaseWords code 4 with
    | some words =>
      -- The first two words and the hyphen between them, as typed.
      let firstTwo := ((words.take 2).map len).sum + 1
      ((code.getTo firstTwo).getD [], join '-' (words.drop 2))
    | none => ((code.getTo 4).getD [], (code.getFrom 5).getD [])

end Shape

section Reading

variable {code w : Str} {parts words : List Str} {count start stop : ℕ}

theorem span_eq (hlt : start < stop) (hle : stop ≤ (code.splitOn '-').length) :
    span code (code.splitOn '-') start stop =
      some (join '-' (((code.splitOn '-').drop start).take (stop - start))) := by
  generalize hparts : code.splitOn '-' = parts at hle ⊢
  generalize hfront : parts.take start = front
  generalize hmid : (parts.drop start).take (stop - start) = mid
  have hlen : mid.length = stop - start := by
    rw [← hmid, List.length_take, List.length_drop]
    omega
  have hne : mid ≠ [] := List.ne_nil_of_length_pos (by omega)
  have hcut : parts = front ++ (mid ++ parts.drop stop) := by
    rw [← hfront, ← hmid]
    have hrest : parts.drop stop = (parts.drop start).drop (stop - start) := by
      rw [List.drop_drop, Nat.add_sub_cancel' hlt.le]
    rw [hrest, List.take_append_drop, List.take_append_drop]
  have hcode : code = front.flatMap (· ++ ['-']) ++ join '-' mid ++
      (parts.drop stop).flatMap ('-' :: ·) := by
    rw [List.append_assoc, ← join_append_right '-' hne,
      ← join_append_left '-' front (by simp [hne]), ← hcut, ← hparts, join_splitOn]
  have hoffset : (front.map fun p => len p + 1).sum = len (front.flatMap (· ++ ['-'])) := by
    clear hcut hcode hfront
    induction front with
    | nil => rfl
    | cons p front ih =>
      rw [List.map_cons, List.sum_cons, List.flatMap_cons, len_append, len_append, ih]; rfl
  have hlength : (mid.map len).sum + (stop - start - 1) = len (join '-' mid) := by
    have hjoin := len_join (c := '-') rfl hne
    rw [List.sum_map_add, List.map_const', List.sum_replicate, smul_eq_mul, mul_one, hlen] at hjoin
    omega
  rw [span, if_pos ⟨hlt.le, hle⟩, hfront, hmid, hoffset, hlength]
  conv_lhs => rw [hcode]
  exact getRange_append _ _ _

/-- Words found are on the list, and what the code says from there on. -/
theorem search_sound (hstart : start ≤ (code.splitOn '-').length)
    (h : search code (code.splitOn '-') count start = some words) :
    words.length = count ∧ (∀ w ∈ words, w ∈ effWords) ∧
      words.flatMap (·.splitOn '-') = (code.splitOn '-').drop start := by
  induction count generalizing start words with
  | zero =>
    rw [search, Option.ite_none_right_eq_some, Option.some.injEq] at h
    rw [← h.2, h.1]
    simp
  | succ count ih =>
    rw [search] at h
    obtain ⟨stop, hmem, hfound⟩ := List.exists_of_findSome?_eq_some h
    obtain ⟨hlt, hle⟩ := List.mem_range'_1.mp hmem
    have hle' : stop ≤ (code.splitOn '-').length := by omega
    rw [span_eq (by omega) hle', Option.bind_eq_bind, Option.bind_some,
      Option.ite_none_right_eq_some, Option.map_eq_some_iff] at hfound
    obtain ⟨hword, rest, hrest, rfl⟩ := hfound
    obtain ⟨hlen, hall, hparts⟩ := ih hle' hrest
    generalize hmid : ((code.splitOn '-').drop start).take (stop - start) = mid at hword
    have hjoin : (join '-' mid).splitOn '-' = mid := by
      rw [← hmid]
      apply splitOn_join
      · intro q hq
        exact not_mem_of_mem_splitOn (List.mem_of_mem_drop (List.mem_of_mem_take hq))
      · apply List.ne_nil_of_length_pos
        rw [List.length_take, List.length_drop]
        omega
    refine ⟨by rw [List.length_cons, hlen], List.forall_mem_cons.mpr ⟨hword, hall⟩, ?_⟩
    have hdrop : (code.splitOn '-').drop stop =
        ((code.splitOn '-').drop start).drop (stop - start) := by
      rw [List.drop_drop, Nat.add_sub_cancel' (by omega)]
    rw [List.flatMap_cons, hjoin, hparts, hdrop, ← hmid, List.take_append_drop]

theorem search_complete (hall : ∀ w ∈ words, w ∈ effWords)
    (hstart : start ≤ (code.splitOn '-').length)
    (h : words.flatMap (·.splitOn '-') = (code.splitOn '-').drop start) :
    (search code (code.splitOn '-') words.length start).isSome := by
  induction words generalizing start with
  | nil =>
    have hend := List.drop_eq_nil_iff.mp h.symm
    rw [List.length_nil, search, if_pos (by omega)]
    rfl
  | cons w words ih =>
    rw [List.forall_mem_cons] at hall
    rw [List.flatMap_cons] at h
    have hpos : 0 < (w.splitOn '-').length := List.length_pos_iff.mpr (List.splitOn_ne_nil '-' w)
    have hlen := congrArg List.length h
    rw [List.length_append, List.length_drop] at hlen
    have hrest : words.flatMap (·.splitOn '-') =
        (code.splitOn '-').drop (start + (w.splitOn '-').length) := by
      rw [← List.drop_drop, ← h, List.drop_left]
    have hword : span code (code.splitOn '-') start (start + (w.splitOn '-').length) = some w := by
      rw [span_eq (by omega) (by omega), ← h, Nat.add_sub_cancel_left, List.take_left, join_splitOn]
    rw [List.length_cons, search, List.findSome?_isSome_iff]
    refine ⟨start + (w.splitOn '-').length, List.mem_range'_1.mpr (by omega), ?_⟩
    rw [hword, Option.bind_eq_bind, Option.bind_some, if_pos hall.1, Option.isSome_map]
    exact ih hall.2 (by omega) hrest

theorem length_splitOn_of_mem (h : w ∈ effWords) :
    0 < (w.splitOn '-').length ∧ (w.splitOn '-').length ≤ 2 := by
  rcases mem_effWords_cases h with rfl | ⟨hw, -⟩
  · decide
  · rw [splitOn_of_isWord hw, List.length_singleton]
    decide

theorem length_splitOn_join (hall : ∀ w ∈ words, w ∈ effWords) :
    words.length ≤ (words.flatMap (·.splitOn '-')).length ∧
      (words.flatMap (·.splitOn '-')).length ≤ words.length * 2 := by
  induction words with
  | nil => decide
  | cons w words ih =>
    rw [List.forall_mem_cons] at hall
    have hw := length_splitOn_of_mem hall.1
    have hwords := ih hall.2
    rw [List.flatMap_cons, List.length_append, List.length_cons]
    omega

theorem effSequence_join (hall : ∀ w ∈ words, w ∈ effWords) (hne : words ≠ []) :
    ∃ found, effSequence (join '-' words) words.length = some found ∧ found.length = words.length ∧
      (∀ w ∈ found, w ∈ effWords) ∧ found.flatMap (·.splitOn '-') =
      words.flatMap (·.splitOn '-') := by
  have hparts := splitOn_join_flatMap (c := '-') hne
  have hlen := length_splitOn_join hall
  obtain ⟨found, hfound⟩ := Option.isSome_iff_exists.mp
    (search_complete hall (Nat.zero_le _) (by rw [hparts, List.drop_zero]))
  obtain ⟨hcount, hmem, hsame⟩ := search_sound (Nat.zero_le _) hfound
  refine ⟨found, ?_, hcount, hmem, by rw [hsame, List.drop_zero, hparts]⟩
  rw [effSequence, if_neg]
  · exact hfound
  · rw [hparts]
    omega

/-- The first word selects the room, the other two are the password. -/
theorem split_join {first second third : Str} (hfirst : first ∈ fourLetterWords)
    (hsecond : second ∈ effWords) (hthird : third ∈ effWords) :
    split (join '-' [first, second, third]) = (first, join '-' [second, third]) := by
  obtain ⟨hlist, hword, hlen⟩ := mem_fourLetterWords hfirst
  have hall : ∀ w ∈ [first, second, third], w ∈ effWords := by simp [hlist, hsecond, hthird]
  obtain ⟨found, hfound, hcount, hmem, hparts⟩ := effSequence_join hall (List.cons_ne_nil _ _)
  obtain ⟨a, b, c, rfl⟩ := List.length_eq_three.mp hcount
  simp only [List.flatMap_cons, List.flatMap_nil, List.append_nil,
    splitOn_of_isWord hword] at hparts
  -- The one word with a hyphen starts with a part of two letters.
  have ha : a = first ∧ b.splitOn '-' ++ c.splitOn '-' =
      second.splitOn '-' ++ third.splitOn '-' := by
    rcases mem_effWords_cases (hmem a (by simp)) with rfl | ⟨haword, -⟩
    · have hhead := List.head_eq_of_cons_eq hparts
      rw [← hhead] at hlen
      exact absurd hlen (by decide)
    · rw [splitOn_of_isWord haword] at hparts
      exact ⟨List.head_eq_of_cons_eq hparts, List.tail_eq_of_cons_eq hparts⟩
  obtain ⟨rfl, hrest⟩ := ha
  have hjoin : join '-' [b, c] = join '-' [second, third] := by
    rw [← join_splitOn '-' (join '-' [b, c]), ← join_splitOn '-' (join '-' [second, third])]
    simp only [splitOn_join_flatMap (List.cons_ne_nil _ _), List.flatMap_cons, List.flatMap_nil,
      List.append_nil, hrest]
  simp only [List.length_cons, List.length_nil] at hfound
  rw [split, hfound]
  simp only [Option.some_or, List.head?_cons, Option.getD_some, List.tail_cons, hjoin]

end Reading

/-- A code that can be used, with the room and password it gives. -/
structure Code where
  typed : Str
  room : Str
  password : Str
  deriving DecidableEq, Repr

namespace Code

section Hash

variable (H : Hashes)

def new (typed : Str) : Code :=
  let (selector, password) := split typed
  ⟨typed, hexEncode (H.sha256 (utf8 selector ++ utf8 "croc".toList)), password⟩

/-- Four digits and then words, which croc 11 never makes. -/
def isCroc10s (code : Code) : Bool :=
  let b := utf8 code.typed
  4 ≤ b.length && (b.take 4).all (fun d => '0'.toNat ≤ d.toNat && d.toNat ≤ '9'.toNat) &&
    b[4]? = some '-'.toUInt8

/-- `checked_mul`, `checked_add` and `checked_rem` of 64-bit numbers, in a row. -/
def checkedStep (n acc : ℕ) (b : UInt8) : Option ℕ :=
  if 2 ^ 64 ≤ acc * 256 ∨ 2 ^ 64 ≤ acc * 256 + b.toNat ∨ n = 0 then none
  else some ((acc * 256 + b.toNat) % n)

/-- Which of `pool` public relays the code belongs to. -/
def relayIndex (code : Code) (pool : ℕ) : ℕ :=
  if pool < 2 ^ 64 then
    (H.sha256 (utf8 code.typed)).foldl (fun acc b => (checkedStep pool acc b).getD 0) 0
  else 0

variable {H}

theorem foldl_checkedStep {n acc : ℕ} (hn : n ≤ 2 ^ 56) (hacc : acc < n) (bytes : Bytes) :
    bytes.foldl (fun acc b => (checkedStep n acc b).getD 0) acc =
      bytes.foldl (fun acc b => (acc * 256 + b.toNat) % n) acc := by
  induction bytes generalizing acc with
  | nil => rfl
  | cons b bytes ih =>
    have hb := b.toNat_lt
    have hstep : checkedStep n acc b = some ((acc * 256 + b.toNat) % n) := by
      rw [checkedStep, if_neg]
      omega
    rw [List.foldl_cons, List.foldl_cons, hstep, Option.getD_some, ih (Nat.mod_lt _ (by omega))]

theorem relayIndex_eq {pool : ℕ} (hpos : 0 < pool) (hle : pool ≤ 2 ^ 56) (code : Code) :
    code.relayIndex H pool = BigEndian.value (H.sha256 (utf8 code.typed)) % pool := by
  have h := BigEndian.foldl_mod pool 0 (H.sha256 (utf8 code.typed))
  rw [zero_mul, zero_add, Nat.zero_mod] at h
  rw [relayIndex, if_pos (by omega), foldl_checkedStep hle hpos, h]

end Hash

end Code

def parse (H : Hashes) (typed : Str) : Except ErrorInfo Code :=
  let joined := typed.hyphenated
  let ok := minCodeBytes ≤ len joined ∧ len joined ≤ maxCodeBytes ∧ joined.all Config.isAsciiGraphic
  if ok then .ok (Code.new H joined) else .error ⟨.badCode, "not a croc code"⟩

section Generate

/-- A computation that draws two bytes at a time, and may not be done yet. The state counts the
draws. -/
abbrev Drawn := StateT ℕ (ExceptT ErrorInfo Option)

variable (draws : ℕ → Except ErrorInfo (UInt8 × UInt8))

def draw : Drawn (UInt8 × UInt8) :=
  fun i => ExceptT.mk (some ((draws i).map fun bytes => (bytes, i + 1)))

def undone {α : Type} : Drawn α := fun _ => ExceptT.mk none

/-- A word of the list, each as likely: a draw past the last whole multiple of the list's length is
drawn again. -/
def pick (words : List Str) : ℕ → Drawn Str
  | 0 => undone
  | fuel + 1 => do
    let n := max (if words.length < 2 ^ 32 then words.length else 1) 1
    let limit := 65536 / n * n
    let bytes ← draw draws
    let v := bytes.1.toNat + 256 * bytes.2.toNat
    if v < limit then
      match words[v % n]? with
      | some word => return word
      | none => throw ⟨.internal, "the word list"⟩
    else pick words fuel

variable (H : Hashes) (on : Option (ℕ × ℕ))

/-- Codes are made until one belongs to the relay. -/
def generateLoop (fuel : ℕ) : ℕ → Drawn Code
  | 0 => undone
  | rounds + 1 => do
    let first ← pick draws fourLetterWords fuel
    let second ← pick draws effWords fuel
    let third ← pick draws effWords fuel
    let code := Code.new H (first ++ ['-'] ++ second ++ ['-'] ++ third)
    match on with
    | some (index, pool) =>
      if code.relayIndex H pool ≠ index then generateLoop fuel rounds else return code
    | none => return code

/-- A new code, on relay `index` of a pool of `pool` if `on` is `(index, pool)`. It is given if
`fuel` draws and rounds are enough. -/
def generateWith (fuel : ℕ) : Option (Except ErrorInfo Code) :=
  (generateLoop draws H on fuel fuel).run' 0

end Generate

section Yields

variable {α β : Type} {m : Drawn α} {P Q : α → Prop} {draws : ℕ → Except ErrorInfo (UInt8 × UInt8)}
  {H : Hashes} {on : Option (ℕ × ℕ)}

/-- Whatever the draws before, a value it ends with has the property. -/
def Yields (m : Drawn α) (P : α → Prop) : Prop := ∀ i a j, m.run i = some (.ok (a, j)) → P a

theorem Yields.pure {a : α} (h : P a) : Yields (Pure.pure a) P := by
  intro i b j hrun
  cases hrun
  exact h

theorem Yields.undone : Yields (undone : Drawn α) P := fun _ _ _ hrun => nomatch hrun

theorem Yields.throw {e : ErrorInfo} : Yields (throw e : Drawn α) P :=
  fun _ _ _ hrun => nomatch hrun

theorem Yields.bind {f : α → Drawn β} {R : β → Prop} (h : Yields m P)
    (hf : ∀ a, P a → Yields (f a) R) : Yields (m >>= f) R := by
  intro i b j hrun
  rw [StateT.run_bind] at hrun
  match hm : m.run i with
  | none => 
    rw [hm] at hrun
    exact nomatch hrun
  | some (.error e) =>
    rw [hm] at hrun
    exact nomatch hrun
  | some (.ok (a, k)) =>
    rw [hm] at hrun
    exact hf a (h i a k hm) k b j hrun

theorem Yields.true (m : Drawn α) : Yields m fun _ => True := fun _ _ _ _ => trivial

theorem bind_of_eq {f : α → Drawn β} {i j : ℕ} {a : α}
    (h : m i = some (.ok (a, j))) : (m >>= f) i = f a j := by
  change (m i >>= fun p => f p.1 p.2 : ExceptT ErrorInfo Option (β × ℕ)) = _
  rw [h]
  rfl

theorem run'_of_eq {i j : ℕ} {a : α} (h : m i = some (.ok (a, j))) :
    m.run' i = (some (.ok a) : Option (Except ErrorInfo α)) := by
  rw [StateT.run'_eq, StateT.run, h]
  rfl

theorem pick_yields (words : List Str) (fuel : ℕ) : Yields (pick draws words fuel) (· ∈ words) := by
  induction fuel with
  | zero => exact Yields.undone
  | succ fuel ih =>
    rw [pick]
    generalize max (if words.length < 2 ^ 32 then words.length else 1) 1 = n
    refine Yields.bind (Yields.true _) fun bytes _ => ?_
    dsimp only
    split
    · split
      · next word hword => exact Yields.pure (List.mem_of_getElem? hword)
      · exact Yields.throw
    · exact ih

structure Generated (H : Hashes) (on : Option (ℕ × ℕ)) (code : Code) : Prop where
  words : ∃ first ∈ fourLetterWords, ∃ second ∈ effWords, ∃ third ∈ effWords,
    code = Code.new H (join '-' [first, second, third])
  relay : ∀ index pool, on = some (index, pool) → code.relayIndex H pool = index

theorem generateLoop_yields (fuel rounds : ℕ) :
    Yields (generateLoop draws H on fuel rounds) (Generated H on) := by
  induction rounds with
  | zero => exact Yields.undone
  | succ rounds ih =>
    rw [generateLoop]
    refine Yields.bind (pick_yields _ fuel) fun first hfirst => ?_
    refine Yields.bind (pick_yields _ fuel) fun second hsecond => ?_
    refine Yields.bind (pick_yields _ fuel) fun third hthird => ?_
    have htext : first ++ ['-'] ++ second ++ ['-'] ++ third = join '-' [first, second, third] := by
      rw [join_cons _ _ (by simp), join_cons _ _ (by simp), join_singleton]
      simp only [List.append_assoc, List.cons_append, List.nil_append]
    rw [htext]
    split
    · next index pool =>
      dsimp only
      split
      · exact ih
      · next hindex =>
        rw [ne_eq, not_not] at hindex
        refine Yields.pure ⟨⟨first, hfirst, second, hsecond, third, hthird, rfl⟩, fun i p hon => ?_⟩
        cases hon
        exact hindex
    · exact Yields.pure ⟨⟨first, hfirst, second, hsecond, third, hthird, rfl⟩,
        fun i p hon => nomatch hon⟩

theorem generateWith_generated {fuel : ℕ} {code : Code}
    (h : generateWith draws H on fuel = some (.ok code)) : Generated H on code := by
  rw [generateWith, StateT.run'_eq] at h
  match hrun : (generateLoop draws H on fuel fuel).run 0 with
  | none =>
    rw [hrun] at h
    exact nomatch h
  | some (.error e) =>
    rw [hrun] at h
    exact nomatch h
  | some (.ok (c, j)) =>
    rw [hrun] at h
    cases h
    exact generateLoop_yields fuel fuel 0 c j hrun

end Yields

section Relays

open Config (Relay Relays)

/-- `PUBLIC_RELAYS`, in the order codes pick them by. -/
def publicRelays : List Str :=
  ["1.getcroc.com", "2.getcroc.com", "3.getcroc.com", "4.getcroc.com"].map String.toList

def croc10Host : Str := "croc.schollz.com".toList

def defaultPort : ℕ := 9009

variable (H : Hashes)

def forCode (code : Code) : Relays → Relay
  | .own relay => relay
  | .publicRelays password =>
    let host := if code.isCroc10s then croc10Host
      else (publicRelays[code.relayIndex H publicRelays.length]?).getD croc10Host
    ⟨host, defaultPort, password⟩

/-- The relays a sender tries, each with what its code must pick, or anything. -/
def forSending : Relays → List (Relay × Option (ℕ × ℕ))
  | .own relay => [(relay, none)]
  | .publicRelays password => publicRelays.zipIdx.map fun (host, i) =>
      (⟨host, defaultPort, password⟩, some (i, publicRelays.length))

end Relays

section Letters

variable {c : Char} {text : Str}

theorem isWord_or_hyphen (h : ∀ p ∈ text.splitOn '-', isWord p) (hc : c ∈ text) :
    c.isLower ∨ c = '-' := by
  rw [← join_splitOn '-' text] at hc
  rcases mem_join hc with rfl | ⟨p, hp, hmem⟩
  · exact .inr rfl
  · exact .inl ((isWord_iff.mp (h p hp)).2 c hmem)

theorem isAsciiGraphic_of_isLower (h : c.isLower) : Config.isAsciiGraphic c := by
  have hc := isLower_iff_toNat.mp h
  simp only [Config.isAsciiGraphic, Bool.and_eq_true, decide_eq_true_eq]
  omega

theorem not_isWhitespace_of_isAsciiGraphic (h : Config.isAsciiGraphic c) :
    isWhitespace c = false := by
  simp only [Config.isAsciiGraphic, Bool.and_eq_true, decide_eq_true_eq] at h
  simp only [isWhitespace, Bool.or_eq_false_iff, Bool.and_eq_false_iff, beq_eq_false_iff_ne,
    decide_eq_false_iff_not]
  omega

theorem isAsciiGraphic_of_parts (h : ∀ p ∈ text.splitOn '-', isWord p) :
    ∀ c ∈ text, Config.isAsciiGraphic c := by
  intro c hc
  rcases isWord_or_hyphen h hc with hlower | rfl
  · exact isAsciiGraphic_of_isLower hlower
  · rfl

theorem utf8EncodeChar_of_isLower (h : c.isLower) :
    String.utf8EncodeChar c = [UInt8.ofNat c.toNat] := by
  have hc := isLower_iff_toNat.mp h
  have hall : ∀ n < 123, String.utf8EncodeChar (Char.ofNat n) = [UInt8.ofNat n] := by decide +kernel
  have hchar := hall c.toNat (by omega)
  rwa [Char.ofNat_toNat] at hchar

end Letters

section New

variable {H : Hashes} {on : Option (ℕ × ℕ)} {code : Code}

theorem parse_of_graphic {text : Str} (hlen : minCodeBytes ≤ len text ∧ len text ≤ maxCodeBytes)
    (hall : ∀ c ∈ text, Config.isAsciiGraphic c) : parse H text = .ok (Code.new H text) := by
  have hjoin : text.hyphenated = text :=
    hyphenated_of_forall fun c hc => not_isWhitespace_of_isAsciiGraphic (hall c hc)
  rw [parse, hjoin, if_pos ⟨hlen.1, hlen.2, List.all_eq_true.mpr hall⟩]

theorem parse_eq_ok {text : Str} (h : parse H text = .ok code) :
    code = Code.new H code.typed ∧ (minCodeBytes ≤ len code.typed ∧ len code.typed ≤ maxCodeBytes) ∧
      ∀ c ∈ code.typed, Config.isAsciiGraphic c := by
  rw [parse] at h
  split_ifs at h with hok
  cases h
  exact ⟨rfl, ⟨hok.1, hok.2.1⟩, List.all_eq_true.mp hok.2.2⟩

theorem parse_parse {text : Str} (h : parse H text = .ok code) : parse H code.typed = .ok code := by
  obtain ⟨hnew, hlen, hall⟩ := parse_eq_ok h
  rw [parse_of_graphic hlen hall, ← hnew]

variable (h : Generated H on code)
include h

theorem Generated.eq_new : code = Code.new H code.typed := by
  obtain ⟨first, -, second, -, third, -, hcode⟩ := h.words
  rw [hcode]
  rfl

theorem Generated.typed : ∃ first ∈ fourLetterWords, ∃ second ∈ effWords, ∃ third ∈ effWords,
    code.typed = join '-' [first, second, third] := by
  obtain ⟨first, hfirst, second, hsecond, third, hthird, hcode⟩ := h.words
  exact ⟨first, hfirst, second, hsecond, third, hthird, congrArg Code.typed hcode⟩

theorem Generated.parts : 3 ≤ (code.typed.splitOn '-').length ∧ ∀ p ∈ code.typed.splitOn '-',
    isWord p := by
  obtain ⟨first, hfirst, second, hsecond, third, hthird, htyped⟩ := h.typed
  have hall : ∀ w ∈ [first, second, third], w ∈ effWords := by
    simp [(mem_fourLetterWords hfirst).1, hsecond, hthird]
  rw [htyped, splitOn_join_flatMap (List.cons_ne_nil _ _)]
  refine ⟨(length_splitOn_join hall).1, fun p hp => ?_⟩
  obtain ⟨w, hw, hp⟩ := List.mem_flatMap.mp hp
  exact isWord_of_mem_splitOn (hall w hw) hp

theorem Generated.len_typed : minCodeBytes ≤ len code.typed ∧ len code.typed ≤ 16 := by
  obtain ⟨first, hfirst, second, hsecond, third, hthird, htyped⟩ := h.typed
  have hlen := len_join (c := '-') rfl (List.cons_ne_nil first [second, third])
  have h₁ := (mem_fourLetterWords hfirst).2.2
  have h₂ := len_of_mem_effWords hsecond
  have h₃ := len_of_mem_effWords hthird
  simp only [List.map_cons, List.map_nil, List.sum_cons, List.sum_nil] at hlen
  rw [htyped, minCodeBytes]
  omega

theorem Generated.parse_typed : parse H code.typed = .ok code := by
  have hlen := h.len_typed
  rw [parse_of_graphic ⟨hlen.1, hlen.2.trans (by decide)⟩ (isAsciiGraphic_of_parts h.parts.2),
    ← h.eq_new]

/-- The words read as croc 10 reads them: the first four bytes, and everything after the fifth. -/
theorem Generated.byte_rule :
    code.typed.getTo 4 = some (split code.typed).1 ∧ code.typed.getFrom 5 =
    some (split code.typed).2 := by
  obtain ⟨first, hfirst, second, hsecond, third, hthird, htyped⟩ := h.typed
  have hlen := (mem_fourLetterWords hfirst).2.2
  rw [htyped, split_join hfirst hsecond hthird, join_cons '-' first (List.cons_ne_nil _ _)]
  constructor
  · rw [← hlen]
    exact getTo_append _ _
  · have hfive : len (first ++ ['-']) = 5 := by
      rw [len_append, hlen]
      rfl
    rw [← hfive, List.append_cons]
    exact getFrom_append _ _

theorem Generated.not_croc10s : code.isCroc10s = false := by
  obtain ⟨first, hfirst, second, -, third, -, htyped⟩ := h.typed
  obtain ⟨hne, hlower⟩ := isWord_iff.mp (mem_fourLetterWords hfirst).2.1
  obtain ⟨c, rest, rfl⟩ := List.exists_cons_of_ne_nil hne
  have hc := hlower c List.mem_cons_self
  have hrange := isLower_iff_toNat.mp hc
  have hbytes : utf8 code.typed =
      UInt8.ofNat c.toNat :: utf8 (rest ++ '-' :: join '-' [second, third]) := by
    rw [htyped, join_cons '-' _ (List.cons_ne_nil _ _), utf8, List.cons_append, List.flatMap_cons,
      utf8EncodeChar_of_isLower hc]
    rfl
  have hsmall : c.toNat < 256 := by omega
  have hfirst : (UInt8.ofNat c.toNat).toNat = c.toNat := UInt8.toNat_ofNat_of_lt' hsmall
  have hnine : '9'.toNat = 57 := rfl
  have hdigit : (decide ('0'.toNat ≤ c.toNat) && decide (c.toNat ≤ '9'.toNat)) = false := by
    rw [hnine, Bool.and_eq_false_iff, decide_eq_false_iff_not, decide_eq_false_iff_not]
    omega
  rw [Code.isCroc10s, hbytes]
  simp only [List.take_succ_cons, List.all_cons, hfirst, hdigit, Bool.false_and, Bool.and_false]

theorem Generated.forCode_eq {relays : Config.Relays} {relay : Config.Relay}
    (hmem : (relay, on) ∈ forSending relays) : forCode H code relays = relay := by
  cases relays with
  | own r =>
    rw [forSending, List.mem_singleton, Prod.mk.injEq] at hmem
    exact hmem.1.symm
  | publicRelays password =>
    obtain ⟨⟨host, i⟩, hhost, heq⟩ := List.mem_map.mp hmem
    rw [Prod.mk.injEq] at heq
    have hindex := h.relay i publicRelays.length heq.2.symm
    have hget := List.mem_zipIdx_iff_getElem?.mp hhost
    rw [forCode, h.not_croc10s, hindex, ← heq.1]
    dsimp only at hget ⊢
    rw [hget]
    rfl

end New

end Sukkula.Croc
