import Keywarden.UserCa

/-!
# What the agent leaves in the configuration of sshd

`ensureSSHDConfig` on a host without the directory for drop-ins looks for one text anywhere
in the file, and appends a directive for the whole server and a `Match` block when it is not
there. What the file means to sshd goes by lines: a directive behind a `Match` line belongs
to its block.
-/
namespace Keywarden.SshdConfig

open Text UserCa

/-! ## How sshd reads its configuration -/

/-- What one line says: the keyword, which does not depend on case, and its arguments. -/
inductive Statement where
  | blank
  | directive (keyword : List Char) (arguments : List (List Char))
  deriving DecidableEq, Repr

/-- A word that is written without quotes. -/
structure Plain (word : List Char) : Prop where
  ne_nil : word ≠ []
  characters : ∀ c ∈ word, (c.isAlphanum || c = '/' || c = '.' || c = '_' || c = '-') = true

instance (word : List Char) : Decidable (Plain word) :=
  @decidable_of_iff _ (word ≠ [] ∧ ∀ c ∈ word, _) ⟨fun h => ⟨h.1, h.2⟩, fun h => ⟨h.1, h.2⟩⟩
    (@instDecidableAnd _ _ inferInstance (List.decidableBAll _ word))

def lineOf (indent : Nat) (words : List (List Char)) : List Char :=
  List.replicate indent ' ' ++ [' '].intercalate words

/-- How sshd reads a line. -/
structure Sshd where
  read : List Char → Statement
  blank : read [] = .blank
  comment : ∀ s, read ('#' :: s) = .blank
  line : ∀ (indent : Nat) (keyword : List Char) (arguments : List (List Char)), Plain keyword →
    arguments ≠ [] → (∀ a ∈ arguments, Plain a) →
    read (lineOf indent (keyword :: arguments)) = .directive (keyword.map Char.toLower) arguments

def Statement.isMatch : Statement → Bool
  | .directive keyword _ => keyword = "match".toList
  | .blank => false

section
variable (S : Sshd)

def statements (text : List Char) : List Statement := (text.splitOn '\n').map S.read

/-- What is for the whole server: the lines before the first block, which goes on to the next
block or to the end. -/
def globals (text : List Char) : List Statement := (statements S text).takeWhile (!·.isMatch)

def trusted : Statement := .directive "trustedusercakeys".toList [userCAPath]

/-- The directive is in the file, not in a comment and not in a block. -/
def Active (text : List Char) : Prop := trusted ∈ globals S text

def blockStart : Statement := .directive "match".toList ["Group".toList, AgentHost.keywardenGroup]

def blockSettings : List Statement :=
  [.directive "authorizedkeysfile".toList ["none".toList],
    .directive "passwordauthentication".toList ["no".toList],
    .directive "challengeresponseauthentication".toList ["no".toList]]

/-- The block of the group is in the file with its settings. -/
def HasBlock (text : List Char) : Prop :=
  ∃ before after, statements S text = before ++ blockStart :: after ∧
    ∀ s ∈ blockSettings, s ∈ after.takeWhile (!·.isMatch)

/-! ## The call and its condition -/

/-- The file still begins with the text it had, the directive is for the whole server, the
block is there, and a second call leaves everything as it is. -/
structure Configured (data : List Char) (h : Host) : Prop where
  kept : ∃ text, h.config = some text ∧ data <+: text ∧ Active S text ∧ HasBlock S text
  settled : ∀ c : Call, c.dropDir = false → (ensureSSHDConfig c h).2 = h

/-- A file that has the text looked for has the directive for the whole server and the block;
one that has not ends outside all blocks, or has the directive in other words. -/
def Ready (data : List Char) : Prop :=
  if marker <:+: data then Active S data ∧ HasBlock S data
  else Active S data ∨ ∀ s ∈ statements S data, s.isMatch = false

end

/-! ## Words of a line -/

theorem Plain.word {word : List Char} (h : Plain word) : Word word := by
  refine ⟨h.ne_nil, fun c hc => ?_⟩
  have hc := h.characters c hc
  simp only [Bool.or_eq_true, decide_eq_true_eq, or_assoc] at hc
  obtain h | rfl | rfl | rfl | rfl := hc
  · exact isSpace_of_printing (printing_of_isAlphanum h)
  all_goals decide

theorem words_lineOf (indent : Nat) {ws : List (List Char)} (h : ∀ w ∈ ws, Plain w) :
    words (lineOf indent ws) = ws := by
  induction indent with
  | succ n ih =>
    have hcons : lineOf (n + 1) ws = [] ++ ' ' :: lineOf n ws := rfl
    rw [hcons, words, List.splitOnP_append_cons _ _ (by decide), List.filter_append]
    exact ih
  | zero =>
    rw [lineOf, List.replicate_zero, List.nil_append]
    induction ws with
    | nil => rfl
    | cons w ws ih =>
      have hw := (h w List.mem_cons_self).word
      cases ws with
      | nil => rw [List.intercalate_singleton, hw.words_eq]
      | cons w' ws =>
        rw [List.intercalate_cons_cons, List.append_assoc, List.singleton_append,
          hw.words_append (by decide), ih fun v hv => h v (List.mem_cons_of_mem w hv)]

/-- sshd as far as words without quotes go. -/
def plainSshd : Sshd where
  read s :=
    match words s with
    | [] => .blank
    | keyword :: arguments =>
      if keyword.head? = some '#' then .blank
      else .directive (keyword.map Char.toLower) arguments
  blank := rfl
  comment s := by
    obtain ⟨w, ws, hsplit⟩ := List.exists_cons_of_ne_nil (List.splitOnP_ne_nil isSpace s)
    have hwords : words ('#' :: s) = ('#' :: w) :: ws.filter (· ≠ []) := by
      rw [words, List.splitOnP_cons_eq_if_modifyHead, if_neg (by decide), hsplit, List.modifyHead_cons,
        List.filter_cons_of_pos (by simp)]
    simp only [hwords, List.head?_cons, if_true]
  line indent keyword arguments hk hne ha := by
    have hws : ∀ w ∈ keyword :: arguments, Plain w := by
      rw [List.forall_mem_cons]
      exact ⟨hk, ha⟩
    simp only [words_lineOf indent hws]
    rw [if_neg]
    intro hhash
    exact absurd (hk.characters '#' (List.mem_of_mem_head? hhash)) (by decide)

/-! ## The text that is appended -/

variable {S : Sshd} {data : List Char}

def appended : List Char := "\n# Keywarden managed users\n".toList ++ content

theorem appended_lines : appended.splitOn '\n' = [[], "# Keywarden managed users".toList,
    lineOf 0 ["TrustedUserCAKeys".toList, userCAPath],
    lineOf 0 ["Match".toList, "Group".toList, AgentHost.keywardenGroup],
    lineOf 4 ["AuthorizedKeysFile".toList, "none".toList],
    lineOf 4 ["PasswordAuthentication".toList, "no".toList],
    lineOf 4 ["ChallengeResponseAuthentication".toList, "no".toList], []] := by
  decide +kernel

theorem statements_appended : statements S appended =
    [.blank, .blank, trusted] ++ blockStart :: (blockSettings ++ [.blank]) := by
  rw [statements, appended_lines]
  simp only [List.map_cons, List.map_nil, S.blank, show "# Keywarden managed users".toList =
    '#' :: " Keywarden managed users".toList from rfl, S.comment]
  rw [S.line 0 _ _ (by decide) (by simp) (by decide), S.line 0 _ _ (by decide) (by simp) (by decide),
    S.line 4 _ _ (by decide) (by simp) (by decide), S.line 4 _ _ (by decide) (by simp) (by decide),
    S.line 4 _ _ (by decide) (by simp) (by decide)]
  rfl

theorem statements_append (a b : List Char) :
    statements S (a ++ '\n' :: b) = statements S a ++ statements S b := by
  rw [statements, List.splitOn_append_cons_self, List.map_append]
  rfl

/-- The lines of the file, without an empty one at its end, come before the ones appended. -/
theorem statements_extended (S : Sshd) (data : List Char) : ∃ before after,
    statements S (extended data) = before ++ statements S appended ∧
      statements S data = before ++ after ∧ (after = [] ∨ after = [.blank]) := by
  by_cases hend : ['\n'] <:+ data
  · obtain ⟨base, rfl⟩ := hend
    refine ⟨statements S base, [.blank], ?_, ?_, .inr rfl⟩
    · have hext : extended (base ++ ['\n']) = base ++ '\n' :: appended := by
        rw [extended, if_pos (List.suffix_append base ['\n']), List.append_assoc, List.append_assoc]
        rfl
      rw [hext, statements_append]
    · rw [statements_append]
      exact congrArg (statements S base ++ [·]) S.blank
  · refine ⟨statements S data, [], ?_, (List.append_nil _).symm, .inl rfl⟩
    have hext : extended data = data ++ '\n' :: appended := by
      rw [extended, if_neg hend, List.append_assoc, List.append_assoc]
      rfl
    rw [hext, statements_append]

theorem takeWhile_append_of_match {l : List Statement} (h : ¬ ∀ s ∈ l, s.isMatch = false)
    (l' : List Statement) : (l ++ l').takeWhile (!·.isMatch) = l.takeWhile (!·.isMatch) := by
  rw [List.takeWhile_append, if_neg]
  intro hlen
  have hall := (List.takeWhile_prefix (p := fun s : Statement => !s.isMatch) (l := l)).eq_of_length hlen
  refine h fun s hs => ?_
  rw [← hall] at hs
  simpa using List.mem_takeWhile_imp hs

theorem takeWhile_append_of_all {l : List Statement} (h : ∀ s ∈ l, s.isMatch = false)
    (l' : List Statement) : (l ++ l').takeWhile (!·.isMatch) = l ++ l'.takeWhile (!·.isMatch) :=
  List.takeWhile_append_of_pos fun s hs => by rw [h s hs]; rfl

theorem active_extended_iff :
    Active S (extended data) ↔ Active S data ∨ ∀ s ∈ statements S data, s.isMatch = false := by
  obtain ⟨before, after, hext, hdata, hafter⟩ := statements_extended S data
  have hblank : ∀ s ∈ after, s.isMatch = false := by
    obtain rfl | rfl := hafter <;> decide
  unfold Active globals
  rw [hext, hdata, statements_appended]
  by_cases hall : ∀ s ∈ before, s.isMatch = false
  · refine iff_of_true ?_ (.inr fun s hs => ?_)
    · rw [takeWhile_append_of_all hall]
      exact List.mem_append_right _ (by decide +kernel)
    · obtain hs | hs := List.mem_append.mp hs
      · exact hall s hs
      · exact hblank s hs
  · rw [takeWhile_append_of_match hall, takeWhile_append_of_match hall]
    refine ⟨.inl, fun h => h.resolve_right fun hno => hall fun s hs => ?_⟩
    exact hno s (List.mem_append_left _ hs)

theorem hasBlock_extended : HasBlock S (extended data) := by
  obtain ⟨before, _, hext, _⟩ := statements_extended S data
  refine ⟨before ++ [.blank, .blank, trusted], blockSettings ++ [.blank], ?_, by decide +kernel⟩
  rw [hext, statements_appended, List.append_assoc]

theorem prefix_extended : data <+: extended data := by
  unfold extended
  split
  · rw [List.append_assoc]
    exact List.prefix_append _ _
  · simp only [List.append_assoc]
    exact List.prefix_append _ _

theorem marker_extended : marker <:+: extended data := by
  apply List.infix_append_of_infix_right
  exact (by decide +kernel : marker <:+: content)

/-! ## The call -/

variable {c : Call} {h h' : Host} {changed : Bool}

/-- A call that succeeds has left a file with the text it looks for, or has extended it. -/
theorem ensureSSHDConfig_ok (hdir : c.dropDir = false) (hdata : h.config = some data)
    (hok : ensureSSHDConfig c h = (.ok changed, h')) :
    (marker <:+: data ∧ h' = h) ∨
      (¬ marker <:+: data ∧ h'.config = some (extended data)) := by
  unfold ensureSSHDConfig at hok
  rw [hdir, if_neg Bool.false_ne_true, hdata] at hok
  split at hok
  · cases hok
  · next hnone => cases hnone
  next text _ htext =>
  cases htext
  split at hok
  · next hmarker =>
    cases hok
    exact .inl ⟨hmarker, rfl⟩
  · next hmarker =>
    unfold writeFile at hok
    split at hok
    · cases hok
      exact .inr ⟨hmarker, rfl⟩
    · cases hok
    · cases hok

theorem ensureSSHDConfig_settled (hconfig : h.config = some data) (hmarker : marker <:+: data)
    (hdir : c.dropDir = false) : (ensureSSHDConfig c h).2 = h := by
  unfold ensureSSHDConfig
  rw [hdir, if_neg Bool.false_ne_true, hconfig]
  split
  · rfl
  · rfl
  next htext =>
  cases htext
  rw [if_pos hmarker]

/-- For any text of the file on a host without the directory for drop-ins: a call that succeeds
leaves the host configured if and only if the text is ready for it. -/
theorem configured_iff (S : Sshd) {c : Call} {h h' : Host} {data : List Char} {changed : Bool}
    (hdir : c.dropDir = false) (hdata : h.config = some data)
    (hok : ensureSSHDConfig c h = (.ok changed, h')) : Configured S data h' ↔ Ready S data := by
  unfold Ready
  obtain ⟨hmarker, rfl⟩ | ⟨hmarker, hconfig⟩ := ensureSSHDConfig_ok hdir hdata hok
  · rw [if_pos hmarker]
    constructor
    · rintro ⟨⟨text, htext, _, hactive, hblock⟩, _⟩
      rw [hdata] at htext
      cases htext
      exact ⟨hactive, hblock⟩
    · rintro ⟨hactive, hblock⟩
      exact ⟨⟨data, hdata, List.prefix_refl _, hactive, hblock⟩,
        fun _ hdir => ensureSSHDConfig_settled hdata hmarker hdir⟩
  · rw [if_neg hmarker, ← active_extended_iff]
    constructor
    · rintro ⟨⟨text, htext, _, hactive, _⟩, _⟩
      rw [hconfig] at htext
      cases htext
      exact hactive
    · intro hactive
      exact ⟨⟨_, hconfig, prefix_extended, hactive, hasBlock_extended⟩,
        fun _ hdir => ensureSSHDConfig_settled hconfig marker_extended hdir⟩

/-- A call on a host without the directory in which nothing fails. -/
def plainCall : Call := { rotation "ssh-ed25519 AAAA" true with dropDir := false }

def hostWith (config : List Char) : Host := ⟨none, none, some config, false⟩

/-- A file without blocks is ready. -/
theorem configured_bare : Configured plainSshd "PermitRootLogin no\n".toList
    { hostWith (extended "PermitRootLogin no\n".toList) with unloaded := true } := by
  refine (configured_iff plainSshd (c := plainCall) (h := hostWith "PermitRootLogin no\n".toList)
    rfl rfl rfl).mpr ?_
  rw [Ready, if_neg (by decide +kernel)]
  exact .inr (by decide +kernel)

/-- The file ends in a block, and the directive becomes a part of it. -/
theorem block_swallows : ¬ ∀ (S : Sshd) (c : Call) (h h' : Host) (data : List Char) (changed : Bool),
    c.dropDir = false → h.config = some data → ensureSSHDConfig c h = (.ok changed, h') →
      Configured S data h' := by
  intro hall
  obtain ⟨text, htext, _, hactive, _⟩ := (hall plainSshd plainCall
    (hostWith "Match User backup\n".toList) _ _ true rfl rfl rfl).kept
  cases htext
  exact absurd hactive (by unfold Active; decide +kernel)

end Keywarden.SshdConfig
