import TrueStore.Store.Services

/-! # The history of the default user

The rules of `ACL SETUSER` that were applied determine the default user: whether it is
enabled, whether it needs a password and which passwords it accepts. A command with an
invalid rule is not applied at all.
-/

namespace TrueStore

open RespType

variable {F : Type} [Platform F]

/-- What the stored passwords look like: 64 lowercase hexadecimal digits. -/
def IsHash (hash : Bytes) : Prop := hash.length = 64 ∧ hash.all Store.isHexDigit = true

instance (hash : Bytes) : Decidable (IsHash hash) := by
  unfold IsHash
  infer_instance

/-- A rule of `ACL SETUSER` with its password hashed. -/
inductive AclRule where
  | on
  | off
  | nopass
  | resetpass
  | add (hash : Bytes)
  | remove (hash : Bytes)
  deriving DecidableEq, Repr

namespace AclRule

def parse (F : Type) [Platform F] (text : Bytes) : Option AclRule :=
  if text = ascii "on" then some on
  else if text = ascii "off" then some off
  else if text = ascii "nopass" then some nopass
  else if text = ascii "resetpass" then some resetpass
  else match text with
    | 62 :: password => some (add (Store.passwordHash F password))
    | 60 :: password => some (remove (Store.passwordHash F password))
    | 35 :: hash => if IsHash hash then some (add hash) else none
    | 33 :: hash => if IsHash hash then some (remove hash) else none
    | _ => none

def apply (u : Store.AclUser) : AclRule → Store.AclUser
  | on => { u with enabled := true }
  | off => { u with enabled := false }
  | nopass => { u with passwords := [], nopass := true }
  | resetpass => { u with passwords := [], nopass := false }
  | add hash =>
    { u with
      passwords := if hash ∈ u.passwords then u.passwords else u.passwords ++ [hash]
      nopass := false }
  | remove hash => { u with passwords := u.passwords.filter (· ≠ hash) }

/-- The last of `on` and `off` decides; the user starts enabled. -/
def Enabled (history : List AclRule) : Prop :=
  (history.filter fun r => r = on ∨ r = off).getLast? ≠ some off

instance (history : List AclRule) : Decidable (Enabled history) := by
  unfold Enabled
  infer_instance

/-- The rules after which it is settled whether a password is needed. -/
def Settles : AclRule → Prop
  | nopass | resetpass | add _ => True
  | _ => False

instance : DecidablePred Settles := fun r => by
  cases r <;> (unfold Settles; infer_instance)

/-- The last such rule was `nopass`, or there was none. -/
def Passwordless (history : List AclRule) : Prop :=
  (history.filter fun r => Settles r).getLast? = none ∨
    (history.filter fun r => Settles r).getLast? = some nopass

/-- The hash was added, since then nothing cleared the passwords, and it was not removed. -/
def Accepts (history : List AclRule) (hash : Bytes) : Prop :=
  ∃ before after, history = before ++ add hash :: after ∧
    ∀ r ∈ after, r ≠ nopass ∧ r ≠ resetpass ∧ r ≠ remove hash

theorem enabled_snoc (history : List AclRule) (r : AclRule) :
    Enabled (history ++ [r]) ↔ r = on ∨ r ≠ off ∧ Enabled history := by
  unfold Enabled
  rw [List.filter_append]
  by_cases hr : r = on ∨ r = off
  · rcases hr with rfl | rfl <;> simp
  · have h₁ : r ≠ on := fun h => hr (Or.inl h)
    have h₂ : r ≠ off := fun h => hr (Or.inr h)
    simp [h₁, h₂]

theorem passwordless_snoc (history : List AclRule) (r : AclRule) :
    Passwordless (history ++ [r]) ↔ r = nopass ∨ ¬Settles r ∧ Passwordless history := by
  unfold Passwordless
  rw [List.filter_append]
  by_cases hr : Settles r
  · simp [hr]
  · have hne : r ≠ nopass := fun h => hr (h ▸ trivial)
    simp [hr, hne]

theorem accepts_snoc (history : List AclRule) (r : AclRule) (hash : Bytes) :
    Accepts (history ++ [r]) hash ↔
      r = add hash ∨ (r ≠ nopass ∧ r ≠ resetpass ∧ r ≠ remove hash) ∧ Accepts history hash := by
  constructor
  · rintro ⟨before, after, heq, hafter⟩
    rcases List.eq_nil_or_concat after with rfl | ⟨after, last, rfl⟩
    · obtain ⟨-, hr⟩ := List.append_inj' heq rfl
      exact Or.inl (by simpa using hr)
    · rw [List.concat_eq_append, ← List.cons_append, ← List.append_assoc] at heq
      obtain ⟨hh, hr⟩ := List.append_inj' heq rfl
      obtain rfl : r = last := by simpa using hr
      refine Or.inr ⟨hafter r (by simp), before, after, hh, fun r' hr' => ?_⟩
      exact hafter r' (by simp [hr'])
  · rintro (rfl | ⟨hr, before, after, rfl, hafter⟩)
    · exact ⟨history, [], rfl, by simp⟩
    · refine ⟨before, after ++ [r], by simp, fun r' hr' => ?_⟩
      rcases List.mem_append.mp hr' with h | h
      · exact hafter r' h
      · obtain rfl := List.mem_singleton.mp h
        exact hr

structure Describes (history : List AclRule) (u : Store.AclUser) : Prop where
  enabled : u.enabled = true ↔ Enabled history
  nopass : u.nopass = true ↔ Passwordless history
  passwords : ∀ hash, hash ∈ u.passwords ↔ Accepts history hash
  passwords_of_nopass : u.nopass = true → u.passwords = []
  nodup : u.passwords.Nodup

theorem describes_nil : Describes [] ⟨true, true, []⟩ where
  enabled := by simp [Enabled]
  nopass := by simp [Passwordless]
  passwords hash := by simp [Accepts]
  passwords_of_nopass _ := rfl
  nodup := List.nodup_nil

theorem Describes.apply {history : List AclRule} {u : Store.AclUser} (h : Describes history u)
    (r : AclRule) : Describes (history ++ [r]) (r.apply u) where
  enabled := by
    rw [enabled_snoc, ← h.enabled]
    cases r <;> simp [AclRule.apply]
  nopass := by
    rw [passwordless_snoc, ← h.nopass]
    cases r <;> simp [AclRule.apply, Settles]
  passwords hash := by
    rw [accepts_snoc, ← h.passwords]
    cases r with
    | on | off | nopass | resetpass => simp [AclRule.apply]
    | remove hash' =>
      have hne : (hash' = hash) = (hash = hash') := propext eq_comm
      simp [AclRule.apply, hne, and_comm]
    | add hash' =>
      by_cases hm : hash' ∈ u.passwords
      · by_cases he : hash' = hash
        · simp [AclRule.apply, he, he ▸ hm]
        · simp [AclRule.apply, hm, he]
      · simp [AclRule.apply, hm, or_comm, eq_comm]
  passwords_of_nopass := by
    cases r with
    | on | off => exact h.passwords_of_nopass
    | nopass => intro _; rfl
    | resetpass | add hash => intro hn; cases hn
    | remove hash =>
      intro hn
      have hnil : u.passwords = [] := h.passwords_of_nopass hn
      simp [AclRule.apply, hnil]
  nodup := by
    cases r with
    | on | off => exact h.nodup
    | nopass | resetpass => exact List.nodup_nil
    | remove hash => exact h.nodup.filter _
    | add hash =>
      simp only [AclRule.apply]
      split
      · exact h.nodup
      · rename_i hm
        exact List.nodup_append.mpr ⟨h.nodup, List.nodup_singleton _, by
          rintro a ha b hb rfl
          exact hm (List.mem_singleton.mp hb ▸ ha)⟩

theorem Describes.foldl {history : List AclRule} {u : Store.AclUser} (h : Describes history u)
    (rules : List AclRule) : Describes (history ++ rules) (rules.foldl AclRule.apply u) := by
  induction rules generalizing history u with
  | nil => simpa using h
  | cons r rules ih => simpa using ih (h.apply r)

end AclRule

namespace Store

open AclRule

theorem aclRule_eq (u : AclUser) (text : Bytes) :
    (∃ r, parse F text = some r ∧ aclRule F u text = .ok (r.apply u)) ∨
      (parse F text = none ∧ ∃ e, aclRule F u text = .error e) := by
  have hoff : ascii "off" ≠ ascii "on" := by decide
  have hreset : ascii "resetpass" ≠ ascii "nopass" := by decide
  by_cases h₁ : text = ascii "on"
  · exact .inl ⟨on, by simp [parse, h₁], by simp [aclRule, h₁, AclRule.apply]⟩
  by_cases h₂ : text = ascii "off"
  · exact .inl ⟨off, by simp [parse, h₂, hoff], by simp [aclRule, h₂, hoff, AclRule.apply]⟩
  by_cases h₃ : text = ascii "nopass"
  · subst h₃
    exact .inl ⟨nopass, by simp [parse, h₁, h₂], by simp [aclRule, h₁, h₂, AclRule.apply]⟩
  by_cases h₄ : text = ascii "resetpass"
  · subst h₄
    exact .inl ⟨resetpass, by simp [parse, h₁, h₂, h₃],
      by simp [aclRule, h₁, h₂, h₃, AclRule.apply]⟩
  have hhash : ∀ hash : Bytes, (hash.length ≠ 64 ∨ (!hash.all isHexDigit) = true) ↔ ¬IsHash hash := by
    intro hash
    unfold IsHash
    grind
  simp only [parse, h₁, h₂, h₃, h₄, if_false]
  split
  · exact .inl ⟨_, rfl, by simp only [aclRule, h₁, h₂, h₃, h₄, or_self, if_false]; rfl⟩
  · exact .inl ⟨_, rfl, by simp only [aclRule, h₁, h₂, h₃, h₄, or_self, if_false]; rfl⟩
  · simp only [aclRule, h₁, h₂, h₃, h₄, or_self, if_false, hhash]
    split
    · exact .inl ⟨_, rfl, by simp [AclRule.apply]⟩
    · exact .inr ⟨rfl, by simp⟩
  · simp only [aclRule, h₁, h₂, h₃, h₄, or_self, if_false, hhash]
    split
    · exact .inl ⟨_, rfl, by simp [AclRule.apply]⟩
    · exact .inr ⟨rfl, by simp⟩
  · refine .inr ⟨rfl, ?_⟩
    simp only [aclRule, h₁, h₂, h₃, h₄, or_self, if_false]
    exact ⟨_, rfl⟩

def parseRules (F : Type) [Platform F] : List Bytes → Option (List AclRule)
  | [] => some []
  | text :: texts =>
    match parse F text, parseRules F texts with
    | some r, some rs => some (r :: rs)
    | _, _ => none

theorem parseRules_eq_none_iff {texts : List Bytes} :
    parseRules F texts = none ↔ ∃ text ∈ texts, parse F text = none := by
  induction texts with
  | nil => simp [parseRules]
  | cons text texts ih =>
    rw [parseRules]
    cases hp : parse F text with
    | none => simp [hp]
    | some r =>
      cases hr : parseRules F texts with
      | none => simpa [hp] using ih.mp hr
      | some rs =>
        have hne := ih.not.mp (by simp [hr])
        simpa [hp] using hne

theorem aclRules_eq (u : AclUser) (texts : List Bytes) :
    (∃ rs, parseRules F texts = some rs ∧ aclRules F u texts = .ok (rs.foldl AclRule.apply u)) ∨
      (parseRules F texts = none ∧ ∃ e, aclRules F u texts = .error e) := by
  induction texts generalizing u with
  | nil => exact .inl ⟨[], rfl, rfl⟩
  | cons text texts ih =>
    rcases aclRule_eq (F := F) u text with ⟨r, hp, hr⟩ | ⟨hp, e, hr⟩
    · rcases ih (r.apply u) with ⟨rs, hps, hrs⟩ | ⟨hps, e, hrs⟩
      · exact .inl ⟨r :: rs, by simp [parseRules, hp, hps], by simp [aclRules, hr, hrs]⟩
      · exact .inr ⟨by simp [parseRules, hp, hps], e, by simp [aclRules, hr, hrs]⟩
    · exact .inr ⟨by simp [parseRules, hp], e, by simp [aclRules, hr]⟩

/-- `ACL SETUSER default` with the given rules. -/
def setuser (s : Store F) (texts : List Bytes) : Store F :=
  (handleAcl (ascii "ACL" :: ascii "SETUSER" :: ascii "default" :: texts) s).2

def applied (F : Type) [Platform F] (texts : List Bytes) : List AclRule :=
  (parseRules F texts).getD []

theorem handleAcl_setuser (s : Store F) (texts : List Bytes) :
    handleAcl (ascii "ACL" :: ascii "SETUSER" :: ascii "default" :: texts) s =
      match aclRules F s.aclUser texts with
      | .error failure => (failure, s)
      | .ok u =>
        (ok, { s with
          defaultUserEnabled := u.enabled
          defaultUserNopass := u.nopass
          defaultUserPasswords := u.passwords }) := by
  have hupper : toUpper (ascii "SETUSER") = ascii "SETUSER" := by decide
  have hwhoami : ascii "SETUSER" ≠ ascii "WHOAMI" := by decide
  have hgetuser : ascii "SETUSER" ≠ ascii "GETUSER" := by decide
  cases hrules : aclRules F s.aclUser texts with
  | error failure =>
    simp only [handleAcl, hupper, if_neg hwhoami, if_neg hgetuser, ne_eq, not_true_eq_false,
      if_false, hrules]
  | ok u =>
    simp only [handleAcl, hupper, if_neg hwhoami, if_neg hgetuser, ne_eq, not_true_eq_false,
      if_false, hrules]

theorem aclUser_setuser (s : Store F) (texts : List Bytes) :
    (s.setuser texts).aclUser = (applied F texts).foldl AclRule.apply s.aclUser := by
  rw [setuser, handleAcl_setuser]
  rcases aclRules_eq (F := F) s.aclUser texts with ⟨rs, hp, hr⟩ | ⟨hp, e, hr⟩
  · rw [hr, applied, hp]
    rfl
  · rw [hr, applied, hp]
    rfl

theorem setuser_of_invalid (s : Store F) {texts : List Bytes}
    (h : ∃ text ∈ texts, parse F text = none) : s.setuser texts = s := by
  rw [setuser, handleAcl_setuser]
  rcases aclRules_eq (F := F) s.aclUser texts with ⟨rs, hp, hr⟩ | ⟨hp, e, hr⟩
  · rw [parseRules_eq_none_iff.mpr h] at hp
    cases hp
  · rw [hr]

def history (F : Type) [Platform F] (commands : List (List Bytes)) : List AclRule :=
  commands.flatMap (applied F)

theorem describes_setusers {past : List AclRule} {s : Store F} (h : Describes past s.aclUser)
    (commands : List (List Bytes)) :
    Describes (past ++ history F commands) (commands.foldl setuser s).aclUser := by
  induction commands generalizing past s with
  | nil => simpa [history] using h
  | cons texts commands ih =>
    have hnext := h.foldl (applied F texts)
    rw [← aclUser_setuser] at hnext
    simpa [history] using ih hnext

theorem isHash_passwordHash {password : Bytes} (h : (Platform.sha256 F password).length = 32) :
    IsHash (passwordHash F password) := by
  have hdigit : ∀ n : Fin 16, isHexDigit (hexDigit n) = true := by decide
  constructor
  · simp [passwordHash, List.length_flatMap, h]
  · rw [List.all_eq_true]
    intro b hb
    obtain ⟨c, -, hc⟩ := List.mem_flatMap.mp hb
    rcases List.mem_pair.mp hc with rfl | rfl
    · exact hdigit ⟨c.toNat / 16, by have := c.toNat_lt; omega⟩
    · exact hdigit ⟨c.toNat % 16, Nat.mod_lt _ (by decide)⟩

theorem isHash_of_parse (hhash : ∀ p, IsHash (passwordHash F p)) {text hash : Bytes}
    (h : parse F text = some (add hash)) : IsHash hash := by
  unfold parse at h
  split_ifs at h <;> try cases h
  split at h
  · cases h
    exact hhash _
  · cases h
  · split_ifs at h with hh
    cases h
    exact hh
  · split_ifs at h; cases h
  · cases h

theorem isHash_of_mem_history (hhash : ∀ p, IsHash (passwordHash F p))
    {commands : List (List Bytes)} {hash : Bytes} (h : add hash ∈ history F commands) :
    IsHash hash := by
  obtain ⟨texts, -, hm⟩ := List.mem_flatMap.mp h
  unfold applied at hm
  clear h
  induction texts with
  | nil => cases hm
  | cons text texts ih =>
    rw [parseRules] at hm
    cases hp : parse F text with
    | none => simp [hp] at hm
    | some r =>
      cases hr : parseRules F texts with
      | none => simp [hp, hr] at hm
      | some rs =>
        rw [hp, hr] at hm
        rcases List.mem_cons.mp hm with he | hm
        · exact isHash_of_parse hhash (he ▸ hp)
        · exact ih (by rw [hr]; exact hm)

/-- `AUTH` compares hashes of one length. -/
theorem passwordMatches_iff {s : Store F} (hhash : ∀ p, IsHash (passwordHash F p))
    (hstored : ∀ hash ∈ s.defaultUserPasswords, IsHash hash) (password : Bytes) :
    s.passwordMatches password = true ↔
      s.defaultUserNopass = true ∨ passwordHash F password ∈ s.defaultUserPasswords := by
  have htake : ∀ p ∈ s.defaultUserPasswords, p.take (passwordHash F password).length = p := by
    intro p hp
    rw [(hhash password).1, ← (hstored p hp).1, List.take_length]
  simp only [passwordMatches, Bool.or_eq_true, List.any_eq_true, decide_eq_true_eq]
  refine or_congr_right ⟨?_, fun h => ⟨_, h, htake _ h⟩⟩
  rintro ⟨p, hp, he⟩
  rw [htake p hp] at he
  exact he ▸ hp

theorem handleAuth_default (s : Store F) (password : Bytes) (client : ClientState) :
    (handleAuth [ascii "AUTH", ascii "default", password] s client).1 = ok ↔
      s.defaultUserEnabled = true ∧ s.passwordMatches password = true := by
  simp only [handleAuth, authenticate, ne_eq, not_true_eq_false, false_or]
  cases s.defaultUserEnabled <;> cases s.passwordMatches password <;> simp <;> decide

/-- The ACL state is what its history says, and so is the outcome of `AUTH`. -/
theorem acl_state_of_history (hhash : ∀ p, IsHash (passwordHash F p)) {s₀ : Store F}
    (h₀ : s₀.aclUser = ⟨true, true, []⟩) (commands : List (List Bytes)) :
    let s := commands.foldl setuser s₀
    (s.defaultUserNopass = true → s.defaultUserPasswords = []) ∧
    s.defaultUserPasswords.Nodup ∧
    (∀ hash ∈ s.defaultUserPasswords, IsHash hash) ∧
    (∀ texts, (∃ text ∈ texts, parse F text = none) → s.setuser texts = s) ∧
    ∀ client password,
      (handleAuth [ascii "AUTH", ascii "default", password] s client).1 = ok ↔
        Enabled (history F commands) ∧
          (Passwordless (history F commands) ∨
            Accepts (history F commands) (passwordHash F password)) := by
  intro s
  have h : Describes (history F commands) s.aclUser := by
    have hstart : Describes [] s₀.aclUser := h₀ ▸ describes_nil
    simpa using describes_setusers hstart commands
  have hstored : ∀ hash ∈ s.defaultUserPasswords, IsHash hash := by
    intro hash hm
    obtain ⟨before, after, heq, -⟩ := (h.passwords hash).mp hm
    have hmem : add hash ∈ history F commands := by rw [heq]; simp
    exact isHash_of_mem_history hhash hmem
  refine ⟨h.passwords_of_nopass, h.nodup, hstored, fun texts => s.setuser_of_invalid, ?_⟩
  intro client password
  rw [handleAuth_default, passwordMatches_iff hhash hstored, ← h.enabled, ← h.nopass,
    ← h.passwords]
  rfl

/-- Whole doubles together with the digest of one password. -/
def Digesting := Whole

instance : Platform Digesting :=
  { (inferInstance : Platform Whole) with
    sha256 := fun password =>
      if password = ascii "secret" then
        hexToBytes (ascii "2bb80d537b1da3e38bd30361aa855686bde0eacd7162fef6a25fe97bf527a25b")
      else List.replicate 32 0 }

/-- A password that a later command fails to take away. -/
theorem acl_state_of_history_added :
    let commands := [[ascii "off", ascii ">secret"], [ascii "on"], [ascii "resetpass", ascii "nope"]]
    let s := commands.foldl setuser ({} : Store Digesting)
    (handleAuth [ascii "AUTH", ascii "default", ascii "secret"] s { fd := 5 }).1 = ok := by
  intro commands s
  have hhash : ∀ p, IsHash (passwordHash Digesting p) := fun p => by
    refine isHash_passwordHash ?_
    simp only [Platform.sha256]
    split <;> decide
  have hfresh : ({} : Store Digesting).aclUser = ⟨true, true, []⟩ := rfl
  have h := (acl_state_of_history hhash hfresh commands).2.2.2.2 { fd := 5 } (ascii "secret")
  refine h.mpr ⟨by decide, Or.inr ⟨[off], [on], by decide, by decide⟩⟩

end Store

end TrueStore
