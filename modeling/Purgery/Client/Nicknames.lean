import Mathlib.Data.List.Chain
import Purgery.Core.Names

namespace Purgery.Client

/-! The nickname of a client. -/

section Sanitize

def separator (c : Char) : Bool := c == '-' || c == '_'

def replaceForeign (c : Char) : Char := if nicknameChar c then c else '-'

/-- Of separators in a row the first is kept; the flag says that one has just been kept. -/
def squeeze : Bool → List Char → List Char
  | _, [] => []
  | kept, c :: cs =>
    if separator c then if kept then squeeze true cs else c :: squeeze true cs
    else c :: squeeze false cs

/-- `trim_matches` of separators. -/
def trimSeparators (cs : List Char) : List Char :=
  ((cs.dropWhile separator).reverse.dropWhile separator).reverse

def sanitizeNickname (raw : String) : String :=
  let trimmed := trimSeparators (squeeze false (raw.toList.map replaceForeign))
  if trimmed.isEmpty then "client" else String.ofList trimmed

end Sanitize

section Choose

/-- How `{:?}` renders a character or an optional string. -/
structure Debug where
  char : Char → String
  option : Option String → String

variable (dbg : Debug)

def nicknameError : NameError → String
  | .empty => "nickname is empty"
  | .invalidCharacter c => "nickname contains invalid character: " ++ dbg.char c

def runIdError : NameError → String
  | .empty => "run ID is empty"
  | .invalidCharacter c => "run ID contains invalid character: " ++ dbg.char c

def autoNicknameFrom (username hostname : Option String) : Except String Nickname :=
  let fallback := (Nickname.new "client").mapError fun e =>
    "failed to generate auto nickname: " ++ nicknameError dbg e
  let sanitized (raw : String) : Except String Nickname :=
    match Nickname.new (sanitizeNickname raw) with
    | .ok nickname => .ok nickname
    | .error _ => fallback
  match username, hostname with
  | some u, some h => sanitized (u ++ "-" ++ h)
  | none, some h => sanitized h
  | some u, none => sanitized u
  | none, none => fallback

/-- What the environment of a process says about who runs it, and where. -/
structure Identity where
  user : Option String
  logname : Option String
  hostname : Option String
  xdgStateHome : Option String
  home : Option String

def autoNickname (id : Identity) : Except String Nickname :=
  autoNicknameFrom dbg (id.user.orElse fun _ => id.logname) id.hostname

def chooseNickname (nickname : Option String) (id : Identity) : Except String Nickname :=
  match nickname with
  | some name => (Nickname.new name).mapError fun e => "invalid --nickname: " ++ nicknameError dbg e
  | none => autoNickname dbg id

end Choose

section Tidy

variable {cs : List Char} {kept : Bool} {c : Char}

/-- Characters of a nickname, with no separator at an end or beside another. -/
structure Tidy (cs : List Char) : Prop where
  nonempty : cs ≠ []
  chars : ∀ c ∈ cs, nicknameChar c = true
  apart : cs.IsChain fun a b => ¬ (separator a = true ∧ separator b = true)
  first : ∀ c ∈ cs.head?, separator c = false
  last : ∀ c ∈ cs.getLast?, separator c = false

theorem mem_squeeze (h : c ∈ squeeze kept cs) : c ∈ cs := by
  induction cs generalizing kept with
  | nil => exact h
  | cons d cs ih =>
    rw [squeeze] at h
    split at h
    · split at h
      · exact List.mem_cons_of_mem d (ih h)
      · obtain rfl | h := List.mem_cons.1 h
        · exact List.mem_cons_self
        · exact List.mem_cons_of_mem d (ih h)
    · obtain rfl | h := List.mem_cons.1 h
      · exact List.mem_cons_self
      · exact List.mem_cons_of_mem d (ih h)

theorem squeeze_apart :
    (squeeze kept cs).IsChain (fun a b => ¬ (separator a = true ∧ separator b = true)) ∧
      (kept = true → ∀ c ∈ (squeeze kept cs).head?, separator c = false) := by
  induction cs generalizing kept with
  | nil => exact ⟨List.isChain_nil, fun _ c hc => nomatch hc⟩
  | cons d cs ih =>
    rw [squeeze]
    cases hd : separator d with
    | true =>
      obtain ⟨hchain, hhead⟩ := @ih true
      cases kept with
      | true => exact ⟨hchain, hhead⟩
      | false =>
        refine ⟨List.isChain_cons.2 ⟨fun c hc hboth => ?_, hchain⟩, nofun⟩
        rw [hhead rfl c hc] at hboth
        exact nomatch hboth.2
    | false =>
      obtain ⟨hchain, -⟩ := @ih false
      refine ⟨List.isChain_cons.2 ⟨fun c _ hboth => ?_, hchain⟩, fun _ c hc => ?_⟩
      · rw [hd] at hboth
        exact nomatch hboth.1
      · obtain rfl := Option.some_inj.1 hc
        exact hd

theorem head_dropWhile (h : c ∈ (cs.dropWhile separator).head?) : separator c = false := by
  have hnot := List.head?_dropWhile_not separator cs
  rw [Option.mem_def.1 h] at hnot
  exact hnot

theorem trimSeparators_begins (cs : List Char) : trimSeparators cs <+: cs.dropWhile separator := by
  have hend := List.dropWhile_suffix separator (l := (cs.dropWhile separator).reverse)
  rw [← List.reverse_prefix, List.reverse_reverse] at hend
  exact hend

theorem trimSeparators_within (cs : List Char) : trimSeparators cs <:+: cs :=
  (trimSeparators_begins cs).isInfix.trans (List.dropWhile_suffix separator).isInfix

theorem trimSeparators_head (h : c ∈ (trimSeparators cs).head?) : separator c = false := by
  obtain ⟨rest, hrest⟩ := trimSeparators_begins cs
  have hhead : c ∈ (cs.dropWhile separator).head? := by
    rw [← hrest]
    exact List.mem_head?_append_of_mem_head? h
  exact head_dropWhile hhead

theorem trimSeparators_last (h : c ∈ (trimSeparators cs).getLast?) : separator c = false := by
  rw [trimSeparators, List.getLast?_reverse] at h
  exact head_dropWhile h

theorem dropWhile_tidy (h : ∀ c ∈ cs.head?, separator c = false) :
    cs.dropWhile separator = cs := by
  cases cs with
  | nil => rfl
  | cons d cs => rw [List.dropWhile_cons, h d rfl, if_neg Bool.false_ne_true]

theorem Tidy.squeeze (h : Tidy cs) : squeeze false cs = cs := by
  have hapart := h.apart
  have hkept : ∀ kept, (kept = true → ∀ c ∈ cs.head?, separator c = false) →
      Purgery.Client.squeeze kept cs = cs := by
    clear h
    induction cs with
    | nil => exact fun _ _ => rfl
    | cons d cs ih =>
      intro kept hkept
      obtain ⟨hhead, hrest⟩ := List.isChain_cons.1 hapart
      rw [Purgery.Client.squeeze]
      cases hd : separator d with
      | true =>
        have hnext : ∀ c ∈ cs.head?, separator c = false := by
          intro c hc
          simpa [hd] using hhead c hc
        cases kept with
        | true => exact absurd (hkept rfl d rfl) (by simp [hd])
        | false => simp [ih hrest true fun _ => hnext]
      | false => simp [ih hrest false nofun]
  exact hkept false nofun

theorem tidy_client : Tidy "client".toList where
  nonempty := by decide
  chars := List.all_eq_true.1 (by decide)
  apart := by decide
  first := by simp [separator]
  last := by simp [separator]

theorem sanitizeNickname_tidy (raw : String) : Tidy (sanitizeNickname raw).toList := by
  unfold sanitizeNickname
  simp only [List.isEmpty_iff]
  split
  · exact tidy_client
  · rename_i hne
    rw [String.toList_ofList]
    refine ⟨hne, fun c hc => ?_, ?_, fun c => trimSeparators_head, fun c => trimSeparators_last⟩
    · obtain ⟨d, -, rfl⟩ := List.mem_map.1 (mem_squeeze ((trimSeparators_within _).mem hc))
      rw [replaceForeign]
      split
      · assumption
      · decide
    · obtain ⟨before, after, hcs⟩ := trimSeparators_within (squeeze false (raw.toList.map
        replaceForeign))
      have hchain := (@squeeze_apart (raw.toList.map replaceForeign) false).1
      rw [← hcs] at hchain
      exact hchain.left_of_append.right_of_append

/-- Sanitizing changes exactly the names that are not tidy. -/
theorem sanitizeNickname_normal (raw : String) :
    Tidy (sanitizeNickname raw).toList ∧ (sanitizeNickname raw = raw ↔ Tidy raw.toList) := by
  refine ⟨sanitizeNickname_tidy raw, fun h => h ▸ sanitizeNickname_tidy raw, fun h => ?_⟩
  have hmap : raw.toList.map replaceForeign = raw.toList :=
    (List.map_congr_left fun c hc => if_pos (h.chars c hc)).trans (List.map_id _)
  have hlast : raw.toList.reverse.dropWhile separator = raw.toList.reverse :=
    dropWhile_tidy (by simpa using h.last)
  have htrim : trimSeparators raw.toList = raw.toList := by
    rw [trimSeparators, dropWhile_tidy h.first, hlast, List.reverse_reverse]
  simp [sanitizeNickname, hmap, h.squeeze, htrim, h.nonempty]

theorem new_tidy {s : String} (h : Tidy s.toList) : ∃ n, Nickname.new s = .ok n ∧ n.asStr = s := by
  have hvalid : s.toList ≠ [] ∧ s.toList.all nicknameChar = true :=
    ⟨h.nonempty, List.all_eq_true.2 h.chars⟩
  exact ⟨⟨s, hvalid⟩, dif_pos hvalid, rfl⟩

/-- Whoever runs the client, it finds a tidy nickname. -/
theorem autoNickname_tidy (dbg : Debug) (id : Identity) :
    ∃ n, autoNickname dbg id = .ok n ∧ Tidy n.asStr.toList := by
  have hsanitized : ∀ raw, ∃ n, Nickname.new (sanitizeNickname raw) = .ok n ∧
      Tidy n.asStr.toList := by
    intro raw
    obtain ⟨n, hn, heq⟩ := new_tidy (sanitizeNickname_tidy raw)
    exact ⟨n, hn, heq ▸ sanitizeNickname_tidy raw⟩
  obtain ⟨c, hc, hceq⟩ := new_tidy tidy_client
  unfold autoNickname autoNicknameFrom
  cases id.user.orElse fun _ => id.logname with
  | none =>
    cases id.hostname with
    | none => exact ⟨c, by simp [hc, Except.mapError], hceq ▸ tidy_client⟩
    | some h =>
      obtain ⟨n, hn, htidy⟩ := hsanitized h
      exact ⟨n, by simp [hn], htidy⟩
  | some u =>
    cases id.hostname with
    | none =>
      obtain ⟨n, hn, htidy⟩ := hsanitized u
      exact ⟨n, by simp [hn], htidy⟩
    | some h =>
      obtain ⟨n, hn, htidy⟩ := hsanitized (u ++ "-" ++ h)
      exact ⟨n, by simp [hn], htidy⟩

end Tidy

end Purgery.Client
