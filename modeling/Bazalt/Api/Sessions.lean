import Bazalt.Api.Login
import Bazalt.Lib.Text
import Bazalt.Lib.Trim

/-!
# Sessions

A request to a protected path is handled when it carries the credentials, or the token of a
session.  A session begins with a login that had the right credentials.  It ends when its
time is over, with a logout, or when too many sessions are open and it is the first to expire.

The table of sessions is shared by all requests.  A request takes it once, and what the other
requests do before and after is not seen.
-/

namespace Bazalt.Api

open Lib Capture

/-! ## Requests -/

/-- The headers that decide, where their value is visible text. -/
structure Headers where
  authorization : Option (List Char) := none
  cookie : Option (List Char) := none
  deriving DecidableEq, Repr

def sessionCookie : List Char := "bazalt_session".toList

/-- `str::strip_prefix`. -/
def stripPrefix (text s : List Char) : Option (List Char) :=
  if text <+: s then some (s.drop text.length) else none

/-- The two parts of `splitn(2, '=')`. -/
def cookieName (item : List Char) : List Char := item.takeWhile fun c ↦ c != '='

def cookieValue (item : List Char) : Option (List Char) :=
  match item.dropWhile fun c ↦ c != '=' with
  | [] => none
  | _ :: value => some value

def sessionTokenOf (h : Headers) : Option SessionToken :=
  h.cookie.bind fun cookie ↦
    (((cookie.splitOn ';').map trim).find? fun item ↦ cookieName item == sessionCookie).bind
      cookieValue

/-- The text before the first colon is the name, the text after it the password.  How the
text is encoded is an argument. -/
def validBasic (decode : List Char → Option Bytes) (cfg : AuthConfig) (h : Headers) : Bool :=
  match h.authorization with
  | none => false
  | some value =>
      match (stripPrefix "Basic ".toList value).or (stripPrefix "basic ".toList value) with
      | none => false
      | some encoded =>
          match decode (trim encoded) with
          | none => false
          | some decoded =>
              if (58 : UInt8) ∈ decoded then
                -- both comparisons are made, whatever the first one gives
                (constantTimeEq (decoded.take (decoded.idxOf 58)) cfg.username).and
                  (constantTimeEq (decoded.drop (decoded.idxOf 58 + 1)) cfg.password)
              else false

namespace AuthManager

variable (m : AuthManager)

/-- Sessions whose time is over are dropped. -/
def retain (now : ℕ) : AuthManager :=
  { m with sessions := m.sessions.filter fun s ↦ decide (now < s.2) }

def validSession (token : SessionToken) (now : ℕ) : AuthManager × Bool :=
  (m.retain now, (((m.retain now).sessions.find? fun s ↦ s.1 == token).any fun s ↦
    decide (now < s.2)))

def isAuthorized (decode : List Char → Option Bytes) (cfg : AuthConfig) (h : Headers) (now : ℕ) :
    AuthManager × Bool :=
  if !cfg.enabled || validBasic decode cfg h then (m, true)
  else match sessionTokenOf h with
    | some token => m.validSession token now
    | none => (m, false)

def logout (h : Headers) : AuthManager :=
  match sessionTokenOf h with
  | some token => { m with sessions := m.sessions.filter fun s ↦ s.1 != token }
  | none => m

end AuthManager

/-- The paths that are refused without credentials. -/
def isProtected (path : List Char) : Bool :=
  path == "/metrics".toList || path == "/auth/logout".toList || path == "/api".toList ||
    "/api/".toList.isPrefixOf path

inductive Answer where
  | handled
  | forbidden
  deriving DecidableEq, Repr

def accessControl (decode : List Char → Option Bytes) (cfg : AuthConfig) (m : AuthManager)
    (path : List Char) (h : Headers) (now : ℕ) : AuthManager × Answer :=
  if isProtected path then
    let r := m.isAuthorized decode cfg h now
    (r.1, if r.2 then .handled else .forbidden)
  else (m, .handled)

/-- A token is made of two random identifiers, as `format!("{}{}")` of their simple forms. -/
def sessionTokenText (a b : Uuid) : SessionToken := digits 16 32 a.toNat ++ digits 16 32 b.toNat

/-- The text of `set_cookie_header`; `sessionTtl` is in nanoseconds. -/
def setCookieHeader (cfg : AuthConfig) (cookieSecure : Bool) (token : SessionToken) : List Char :=
  sessionCookie ++ '=' :: (token ++ "; Path=/; HttpOnly; SameSite=Strict; Max-Age=".toList ++
    (toString (cfg.sessionTtl / 1000000000)).toList ++
      if cookieSecure then "; Secure".toList else [])

/-- The part of a `Set-Cookie` header that a browser sends back. -/
def returnedPart (header : List Char) : List Char := header.takeWhile fun c ↦ c != ';'

/-! ## Logins, requests and logouts in any order -/

inductive Request (ι : Type) where
  | login (e : LoginEvent ι)
  | access (path : List Char) (headers : Headers) (now : ℕ)
  | logout (headers : Headers)

/-- What has become of the sessions. -/
inductive Deed (ι : Type) where
  | opened (login : ι) (token : SessionToken) (expiry : ℕ)
  | closed (token : SessionToken)
  deriving DecidableEq

def Deed.token {ι : Type} : Deed ι → SessionToken
  | opened _ token _ => token
  | closed token => token

def Stage.isOpening : Stage → Bool
  | .opening => true
  | _ => false

/-- The logins with what they share, the deeds so far, and the latest reading of the clock. -/
structure Gate (ι : Type) where
  logins : Logins ι
  deeds : List (Deed ι) := []
  clock : ℕ := 0

namespace Gate

variable {ι : Type} [DecidableEq ι] (decode : List Char → Option Bytes) (cfg : AuthConfig)

/-- Nobody has begun, and no session is open. -/
def start (credentials : ι → IpAddr × Bytes × Bytes) : Gate ι where
  logins := ⟨{}, fun i ↦ ⟨(credentials i).1, (credentials i).2.1, (credentials i).2.2, .entered⟩⟩

def step (g : Gate ι) : Request ι → Gate ι
  | .login e =>
      { logins := g.logins.step cfg e
        deeds := g.deeds ++ if (g.logins.locals e.login).stage.isOpening then
          [.opened e.login e.token (e.now + cfg.sessionTtl)] else []
        clock := max g.clock e.now }
  | .access path headers now =>
      { g with
        logins.shared := (accessControl decode cfg g.logins.shared path headers now).1
        clock := max g.clock now }
  | .logout headers =>
      { g with
        logins.shared := g.logins.shared.logout headers
        deeds := g.deeds ++ ((sessionTokenOf headers).map Deed.closed).toList }

def after (credentials : ι → IpAddr × Bytes × Bytes) (requests : List (Request ι)) : Gate ι :=
  runFrom (step decode cfg) (start credentials) requests

end Gate

/-- The last deed with the token opened a session, by a login with the right credentials. -/
def Opened {ι : Type} (cfg : AuthConfig) (g : Gate ι) (token : SessionToken) (expiry : ℕ) : Prop :=
  ∃ i before later, g.deeds = before ++ .opened i token expiry :: later ∧
    (∀ d ∈ later, d.token ≠ token) ∧ ¬ (g.logins.locals i).Wrong cfg

/-! ## Headers -/

theorem stripPrefix_eq_some {text s rest : List Char} :
    stripPrefix text s = some rest ↔ s = text ++ rest := by
  unfold stripPrefix
  split_ifs with hprefix
  · obtain ⟨rest', rfl⟩ := hprefix
    simp
  · simp only [false_iff]
    rintro rfl
    exact hprefix (List.prefix_append _ _)

/-- The name ends at the first colon, and the password may have more of them. -/
theorem eq_credentials_iff (username password decoded : Bytes) :
    ((58 : UInt8) ∈ decoded ∧ decoded.take (decoded.idxOf 58) = username ∧
      decoded.drop (decoded.idxOf 58 + 1) = password) ↔
        (58 : UInt8) ∉ username ∧ decoded = username ++ 58 :: password := by
  constructor
  · rintro ⟨hmem, rfl, rfl⟩
    obtain ⟨before, after, hsplit, hbefore⟩ := List.eq_append_cons_of_mem hmem
    have hidx : decoded.idxOf 58 = before.length := by
      rw [hsplit, List.idxOf_append_of_notMem hbefore, List.idxOf_cons_self, Nat.add_zero]
    rw [hidx, hsplit, List.take_left, List.drop_append, List.drop_of_length_le (Nat.le_succ _)]
    simpa using hbefore
  · rintro ⟨husername, rfl⟩
    have hidx : (username ++ 58 :: password).idxOf 58 = username.length := by
      rw [List.idxOf_append_of_notMem husername, List.idxOf_cons_self, Nat.add_zero]
    rw [hidx]
    refine ⟨List.mem_append_right _ List.mem_cons_self, List.take_left, ?_⟩
    simp

/-- The header has the name, which is without a colon, then a colon and the password. -/
def Presents (decode : List Char → Option Bytes) (cfg : AuthConfig) (h : Headers) : Prop :=
  (58 : UInt8) ∉ cfg.username ∧ ∃ encoded,
    (h.authorization = some ("Basic ".toList ++ encoded) ∨
      h.authorization = some ("basic ".toList ++ encoded)) ∧
    decode (trim encoded) = some (cfg.username ++ 58 :: cfg.password)

theorem validBasic_iff {decode : List Char → Option Bytes} {cfg : AuthConfig} {h : Headers} :
    validBasic decode cfg h = true ↔ Presents decode cfg h := by
  unfold validBasic Presents
  cases h.authorization with
  | none => simp
  | some value =>
      have hencoded : ∀ encoded, (stripPrefix "Basic ".toList value).or
          (stripPrefix "basic ".toList value) = some encoded ↔
            some value = some ("Basic ".toList ++ encoded) ∨
              some value = some ("basic ".toList ++ encoded) := by
        intro encoded
        rw [Option.some_inj, Option.some_inj, ← stripPrefix_eq_some, ← stripPrefix_eq_some,
          Option.or_eq_some_iff]
        refine or_congr_right ⟨fun h ↦ h.2, fun h ↦ ⟨?_, h⟩⟩
        rw [stripPrefix_eq_some] at h
        subst h
        rfl
      simp only [← hencoded]
      cases (stripPrefix "Basic ".toList value).or (stripPrefix "basic ".toList value) with
      | none => simp
      | some encoded =>
          cases hdecoded : decode (trim encoded) with
          | none => simp [hdecoded]
          | some decoded =>
              have hiff := eq_credentials_iff cfg.username cfg.password decoded
              by_cases hmem : (58 : UInt8) ∈ decoded
              · simpa [hdecoded, hmem, constantTimeEq_iff] using hiff
              · simpa [hdecoded, hmem] using hiff

/-! ## Cookies -/

def isPlain (c : Char) : Bool := c != ';' && !isWhitespace c

theorem isPlain_iff {c : Char} : isPlain c = true ↔ c ≠ ';' ∧ isWhitespace c = false := by
  simp [isPlain]

/-- A cookie whose parts a header can carry. -/
structure Cookie where
  name : List Char
  value : List Char
  name_plain : (name.all fun c ↦ isPlain c && c != '=') = true
  value_plain : value.all isPlain = true

namespace Cookie

def text (c : Cookie) : List Char := c.name ++ '=' :: c.value

theorem of_mem_name {c : Cookie} {x : Char} (hx : x ∈ c.name) : isPlain x = true ∧ x ≠ '=' := by
  simpa using List.all_eq_true.mp c.name_plain x hx

theorem text_plain (c : Cookie) : ∀ x ∈ c.text, x ≠ ';' ∧ isWhitespace x = false := by
  intro x hx
  rw [← isPlain_iff]
  rcases List.mem_append.mp hx with hx | hx
  · exact (of_mem_name hx).1
  · rcases List.mem_cons.mp hx with rfl | hx
    · rfl
    · exact List.all_eq_true.mp c.value_plain x hx

theorem cookieName_text (c : Cookie) : cookieName c.text = c.name := by
  apply List.takeWhile_append_of_pos _ |>.trans
  · simp
  · intro x hx
    simpa using (of_mem_name hx).2

theorem cookieValue_text (c : Cookie) : cookieValue c.text = some c.value := by
  have hdrop : c.text.dropWhile (fun x ↦ x != '=') = '=' :: c.value := by
    apply List.dropWhile_append_of_pos _ |>.trans
    · simp
    · intro x hx
      simpa using (of_mem_name hx).2
  unfold cookieValue
  rw [hdrop]

end Cookie

/-- The blank before a text without whitespace goes, and nothing else. -/
theorem trim_blank {text : List Char} (h : ∀ c ∈ text, isWhitespace c = false) :
    trim (' ' :: text) = text := by
  have hblank : ∀ c ∈ [' '], isWhitespace c := List.forall_mem_singleton.mpr rfl
  have hnone : ∀ c ∈ ([] : List Char), isWhitespace c := by simp
  have hsame := trim_append hblank hnone text
  rwa [List.append_nil, trim_of_forall_not h] at hsame

/-- The header that a browser sends with its cookies. -/
def cookieHeader (cookies : List Cookie) : List Char :=
  "; ".toList.intercalate (cookies.map Cookie.text)

theorem map_trim_splitOn_cookieHeader (c : Cookie) (cookies : List Cookie) :
    ((cookieHeader (c :: cookies)).splitOn ';').map trim = (c :: cookies).map Cookie.text := by
  -- the blank after a semicolon belongs to the next cookie
  have hheader : cookieHeader (c :: cookies) =
      [';'].intercalate (c.text :: cookies.map fun c ↦ ' ' :: c.text) := by
    unfold cookieHeader
    induction cookies generalizing c with
    | nil => simp
    | cons d cookies ih =>
        simp only [List.map_cons] at ih ⊢
        rw [List.intercalate_cons_cons, ih d, List.intercalate_cons_cons]
        cases cookies <;> simp
  have hsplit : ([';'].intercalate (c.text :: cookies.map fun c ↦ ' ' :: c.text)).splitOn ';' =
      c.text :: cookies.map fun c ↦ ' ' :: c.text :=
    List.splitOn_intercalate ';' ?_ (List.cons_ne_nil _ _)
  · rw [hheader, hsplit, List.map_cons, trim_of_forall_not fun x hx ↦ (c.text_plain x hx).2, List.map_map]
    refine congrArg (c.text :: ·) (List.map_congr_left fun d _ ↦ ?_)
    exact trim_blank fun x hx ↦ (d.text_plain x hx).2
  · intro item hitem hmem
    rcases List.mem_cons.mp hitem with rfl | hitem
    · exact (c.text_plain _ hmem).1 rfl
    · obtain ⟨d, -, rfl⟩ := List.mem_map.mp hitem
      rcases List.mem_cons.mp hmem with hblank | hmem
      · exact absurd hblank (by decide)
      · exact (d.text_plain _ hmem).1 rfl

/-- The token that is read is the value of the first cookie with the name. -/
theorem sessionTokenOf_cookieHeader {h : Headers} {cookies : List Cookie}
    (hcookie : h.cookie = some (cookieHeader cookies)) :
    sessionTokenOf h =
      (cookies.find? fun c ↦ c.name == sessionCookie).map Cookie.value := by
  unfold sessionTokenOf
  rw [hcookie, Option.bind_some]
  cases cookies with
  | nil => decide
  | cons c cookies =>
      rw [map_trim_splitOn_cookieHeader, List.find?_map]
      have hname : ((fun item ↦ cookieName item == sessionCookie) ∘ Cookie.text) =
          fun c ↦ c.name == sessionCookie := by
        funext d
        rw [Function.comp_apply, d.cookieName_text]
      rw [hname]
      cases (c :: cookies).find? fun c ↦ c.name == sessionCookie with
      | none => rfl
      | some d => exact d.cookieValue_text

theorem digits_plain (width n : ℕ) : (digits 16 width n).all isPlain = true := by
  induction width generalizing n with
  | zero => rfl
  | succ width ih =>
      have hdigit : ∀ digit < 16, isPlain (Nat.digitChar digit) = true := by decide
      rw [digits, List.all_append, ih, List.all_cons, hdigit _ (Nat.mod_lt n (by decide))]
      rfl

/-- The cookie of a session. -/
def sessionCookieOf (a b : Uuid) : Cookie where
  name := sessionCookie
  value := sessionTokenText a b
  name_plain := by decide
  value_plain := by rw [sessionTokenText, List.all_append, digits_plain, digits_plain]; rfl

theorem returnedPart_append {part rest : List Char} (h : ∀ c ∈ part, c ≠ ';') :
    returnedPart (part ++ ';' :: rest) = part := by
  apply List.takeWhile_append_of_pos _ |>.trans
  · simp
  · intro c hc
    simpa using h c hc

theorem returnedPart_setCookieHeader (cfg : AuthConfig) (cookieSecure : Bool) (a b : Uuid) :
    returnedPart (setCookieHeader cfg cookieSecure (sessionTokenText a b)) =
      (sessionCookieOf a b).text := by
  rw [← returnedPart_append
    fun c hc ↦ ((sessionCookieOf a b).text_plain c hc).1]
  simp only [setCookieHeader, Cookie.text, sessionCookieOf, List.append_assoc, List.cons_append]
  rfl

/-- A browser that has taken the cookie of its login, and sends it with any others, is known by
the token of the login. -/
theorem sessionTokenOf_setCookieHeader (cfg : AuthConfig) (cookieSecure : Bool) (a b : Uuid)
    (authorization : Option (List Char)) (before after : List Cookie)
    (hbefore : ∀ c ∈ before, c.name ≠ sessionCookie) :
    sessionTokenOf ⟨authorization, some ("; ".toList.intercalate (before.map Cookie.text ++
      returnedPart (setCookieHeader cfg cookieSecure (sessionTokenText a b)) ::
        after.map Cookie.text))⟩ = some (sessionTokenText a b) := by
  have hcookie : before.map Cookie.text ++
      returnedPart (setCookieHeader cfg cookieSecure (sessionTokenText a b)) ::
        after.map Cookie.text = (before ++ sessionCookieOf a b :: after).map Cookie.text := by
    rw [returnedPart_setCookieHeader, List.map_append, List.map_cons]
  rw [hcookie, sessionTokenOf_cookieHeader rfl, List.find?_append,
    List.find?_eq_none.mpr fun c hc ↦ by simpa using hbefore c hc, Option.none_or,
    List.find?_cons_of_pos (by exact beq_self_eq_true _)]
  rfl

/-- Another cookie comes first. -/
def themeCookie : Cookie := ⟨"theme".toList, "dark".toList, by decide, by decide⟩

theorem sessionTokenOf_setCookieHeader_theme :
    themeCookie.name ≠ sessionCookie ∧
      sessionTokenOf ⟨none, some ("; ".toList.intercalate ([themeCookie.text,
        returnedPart (setCookieHeader adminAuth true (sessionTokenText 7 9))]))⟩ =
          some (sessionTokenText 7 9) := by
  have htheme : themeCookie.name ≠ sessionCookie := by decide
  exact ⟨htheme, sessionTokenOf_setCookieHeader adminAuth true 7 9 none [themeCookie] []
    (by simpa using htheme)⟩

/-! ## The table -/

namespace AuthManager

variable {m : AuthManager} {token : SessionToken} {first now ttl : ℕ}

/-- Every token has one session, and there are not too many. -/
structure Tidy (m : AuthManager) : Prop where
  nodup : (m.sessions.map Prod.fst).Nodup
  bounded : m.sessions.length ≤ maxSessions

theorem Tidy.of_sublist {m' : AuthManager} (h : m.Tidy) (hsub : m'.sessions.Sublist m.sessions) :
    m'.Tidy :=
  ⟨h.nodup.sublist (hsub.map Prod.fst), hsub.length_le.trans h.bounded⟩

theorem Tidy.retain (h : m.Tidy) (now : ℕ) : (m.retain now).Tidy :=
  h.of_sublist List.filter_sublist

theorem Tidy.logout (h : m.Tidy) (headers : Headers) : (m.logout headers).Tidy := by
  unfold AuthManager.logout
  split
  · exact h.of_sublist List.filter_sublist
  · exact h

/-- One entry at most has the token. -/
theorem Tidy.eq_of_mem (h : m.Tidy) {s t : SessionToken × ℕ} (hs : s ∈ m.sessions)
    (ht : t ∈ m.sessions) (hst : s.1 = t.1) : s = t :=
  List.inj_on_of_nodup_map h.nodup hs ht hst

theorem exists_firstToExpire {sessions : List (SessionToken × ℕ)} (h : sessions ≠ [])
    (first : ℕ) : ∃ oldest ∈ sessions, firstToExpire sessions first = some oldest := by
  obtain ⟨s, hs⟩ := Option.isSome_iff_exists.mp
    (Option.isSome_iff_ne_none.mpr (mt List.argmin_eq_none.mp h : sessions.argmin Prod.snd ≠ none))
  have hmem : s ∈ sessions.filter fun s ↦ sessions.all fun t ↦ decide (s.2 ≤ t.2) := by
    refine List.mem_filter.mpr ⟨List.argmin_mem hs, List.all_eq_true.mpr fun t ht ↦ ?_⟩
    exact decide_eq_true (List.le_of_mem_argmin ht hs)
  have hlt := Nat.mod_lt first (List.length_pos_of_mem hmem)
  exact ⟨_, (List.mem_filter.mp (List.getElem_mem hlt)).1, List.getElem?_eq_getElem hlt⟩

/-- The sessions that make room for a new one. -/
def roomy (m : AuthManager) (first now : ℕ) : List (SessionToken × ℕ) :=
  let sessions := m.sessions.filter fun s ↦ decide (now < s.2)
  if maxSessions ≤ sessions.length then
    match firstToExpire sessions first with
    | some oldest => sessions.filter fun s ↦ s.1 != oldest.1
    | none => sessions
  else sessions

theorem openSession_eq (m : AuthManager) (token : SessionToken) (first now ttl : ℕ) :
    (m.openSession token first now ttl).sessions =
      (token, now + ttl) :: (m.roomy first now).filter fun s ↦ s.1 != token := rfl

theorem roomy_sublist (m : AuthManager) (first now : ℕ) : (m.roomy first now).Sublist m.sessions := by
  unfold roomy
  dsimp only
  split_ifs
  · split
    · exact List.filter_sublist.trans List.filter_sublist
    · exact List.filter_sublist
  · exact List.filter_sublist

/-- Without too many sessions nothing has to go before its time. -/
theorem roomy_of_lt (h : (m.sessions.filter fun s ↦ decide (now < s.2)).length < maxSessions) :
    m.roomy first now = m.sessions.filter fun s ↦ decide (now < s.2) :=
  if_neg (not_le.mpr h)

theorem length_roomy_lt (h : m.Tidy) (first now : ℕ) : (m.roomy first now).length < maxSessions := by
  unfold roomy
  dsimp only
  have hle : (m.sessions.filter fun s ↦ decide (now < s.2)).length ≤ maxSessions :=
    (List.length_filter_le _ _).trans h.bounded
  split_ifs with hfull
  · have hne : (m.sessions.filter fun s ↦ decide (now < s.2)) ≠ [] := by
      intro hnone
      rw [hnone] at hfull
      exact absurd hfull (by decide)
    obtain ⟨oldest, hmem, holdest⟩ := exists_firstToExpire hne first
    rw [holdest]
    refine lt_of_lt_of_le ?_ hle
    refine List.length_filter_lt_length_iff_exists.mpr ⟨oldest, hmem, ?_⟩
    simp
  · exact not_le.mp hfull

theorem Tidy.openSession (h : m.Tidy) (token : SessionToken) (first now ttl : ℕ) :
    (m.openSession token first now ttl).Tidy := by
  have hsub : ((m.roomy first now).filter fun s ↦ s.1 != token).Sublist m.sessions :=
    List.filter_sublist.trans (m.roomy_sublist first now)
  constructor
  · rw [openSession_eq, List.map_cons, List.nodup_cons]
    refine ⟨fun hmem ↦ ?_, h.nodup.sublist (hsub.map Prod.fst)⟩
    obtain ⟨s, hs, htoken⟩ := List.mem_map.mp hmem
    simpa [htoken] using (List.mem_filter.mp hs).2
  · rw [openSession_eq, List.length_cons]
    exact Nat.succ_le_of_lt ((List.length_filter_le _ _).trans_lt (length_roomy_lt h first now))

variable (token now) in
/-- A token is accepted while its session is in the table and its time is not over. -/
theorem Tidy.validSession_iff (h : m.Tidy) :
    (m.validSession token now).2 = true ↔ ∃ expiry, (token, expiry) ∈ m.sessions ∧ now < expiry := by
  unfold validSession
  constructor
  · intro hvalid
    cases hfind : (m.retain now).sessions.find? fun s ↦ s.1 == token with
    | none => simp [hfind] at hvalid
    | some s =>
        have htoken : s.1 = token := by simpa using List.find?_some hfind
        obtain ⟨hmem, hlive⟩ := List.mem_filter.mp (List.mem_of_find?_eq_some hfind)
        exact ⟨s.2, htoken ▸ hmem, of_decide_eq_true hlive⟩
  · rintro ⟨expiry, hmem, hlive⟩
    have hkept : (token, expiry) ∈ (m.retain now).sessions :=
      List.mem_filter.mpr ⟨hmem, decide_eq_true hlive⟩
    cases hfind : (m.retain now).sessions.find? fun s ↦ s.1 == token with
    | none =>
        have hnone := List.find?_eq_none.mp hfind _ hkept
        simp at hnone
    | some s =>
        have htoken : s.1 = token := by simpa using List.find?_some hfind
        have hsame := (h.retain now).eq_of_mem (List.mem_of_find?_eq_some hfind) hkept htoken
        rw [hsame]
        simpa using hlive

/-- What a request does to the sessions. -/
theorem sessions_accessControl (decode : List Char → Option Bytes) (cfg : AuthConfig)
    (m : AuthManager) (path : List Char) (h : Headers) (now : ℕ) :
    (accessControl decode cfg m path h now).1.sessions = m.sessions ∨
      (accessControl decode cfg m path h now).1.sessions = (m.retain now).sessions := by
  unfold accessControl isAuthorized
  by_cases hpath : isProtected path
  · rw [if_pos hpath]
    by_cases hbasic : (!cfg.enabled || validBasic decode cfg h) = true
    · rw [if_pos hbasic]
      exact .inl rfl
    · rw [if_neg hbasic]
      cases sessionTokenOf h with
      | none => exact .inl rfl
      | some token => exact .inr rfl
  · rw [if_neg hpath]
    exact .inl rfl

/-- When a request to a protected path is handled. -/
theorem accessControl_iff {decode : List Char → Option Bytes} {cfg : AuthConfig}
    {path : List Char} {h : Headers} (hm : m.Tidy) :
    (accessControl decode cfg m path h now).2 = .handled ↔
      isProtected path = false ∨ cfg.enabled = false ∨ Presents decode cfg h ∨
        ∃ token expiry, sessionTokenOf h = some token ∧ (token, expiry) ∈ m.sessions ∧
          now < expiry := by
  rw [← validBasic_iff]
  unfold accessControl isAuthorized
  cases hpath : isProtected path with
  | false => simp
  | true =>
      cases henabled : cfg.enabled with
      | false => simp
      | true =>
          cases hbasic : validBasic decode cfg h with
          | true => simp
          | false =>
              cases htoken : sessionTokenOf h with
              | none => simp
              | some token =>
                  have hvalid := hm.validSession_iff token now
                  cases hresult : (m.validSession token now).2 with
                  | true => simpa [hresult] using hvalid.mp hresult
                  | false =>
                      rw [hresult] at hvalid
                      simpa [hresult] using hvalid

end AuthManager

/-- A login that opens its session adds it, and any other step leaves the sessions. -/
theorem Login.next_sessions (cfg : AuthConfig) (now : ℕ) (token : SessionToken) (first : ℕ)
    (m : AuthManager) (l : Login) : (l.next cfg now token first m).1.sessions = if l.stage.isOpening then
      (m.openSession token first now cfg.sessionTtl).sessions else m.sessions := by
  unfold Login.next
  cases l.stage with
  | entered => cases cfg.enabled <;> rfl
  | _ => rfl

/-- The comparison has succeeded. -/
def Stage.accepted : Stage → Bool
  | .succeeding | .opening => true
  | _ => false

/-- Only right credentials get past the comparison. -/
theorem Login.next_accepted {cfg : AuthConfig} {now first : ℕ} {token : SessionToken} {m : AuthManager}
    {l : Login} (h : l.stage.accepted = true → ¬ l.Wrong cfg) :
    (l.next cfg now token first m).2.stage.accepted = true →
      ¬ (l.next cfg now token first m).2.Wrong cfg := by
  rw [Login.next_wrong]
  intro haccepted
  cases hstage : l.stage with
  | entered =>
      cases henabled : cfg.enabled with
      | false => simp [Login.next, hstage, henabled, Stage.accepted] at haccepted
      | true =>
          cases hlimited : (m.isRateLimited l.ip now).2 <;>
            simp [Login.next, hstage, henabled, hlimited, Stage.accepted] at haccepted
  | comparing =>
      cases hvalid : (constantTimeEq l.username cfg.username).and
          (constantTimeEq l.password cfg.password) with
      | false => simp [Login.next, hstage, hvalid, Stage.accepted] at haccepted
      | true =>
          obtain ⟨hname, hpassword⟩ := Bool.and_eq_true_iff.mp hvalid
          rw [constantTimeEq_iff] at hname hpassword
          rintro (hwrong | hwrong)
          · exact hwrong hname
          · exact hwrong hpassword
  | failing => simp [Login.next, hstage, Stage.accepted] at haccepted
  | succeeding => exact h (by rw [hstage]; rfl)
  | opening => exact h (by rw [hstage]; rfl)
  | returned result => simp [Login.next, hstage, Stage.accepted] at haccepted

/-! ## Runs -/

section

variable {ι : Type} {decode : List Char → Option Bytes} {cfg : AuthConfig} {g : Gate ι}
  {token : SessionToken} {expiry : ℕ}

/-- Deeds with other tokens change nothing for a token. -/
theorem Opened.mono {g' : Gate ι} (h : Opened cfg g token expiry) {l : List (Deed ι)}
    (hdeeds : g'.deeds = g.deeds ++ l) (hmore : ∀ d ∈ l, d.token ≠ token)
    (hwrong : ∀ i, (g'.logins.locals i).Wrong cfg → (g.logins.locals i).Wrong cfg) :
    Opened cfg g' token expiry := by
  obtain ⟨i, before, later, hsplit, hlater, hright⟩ := h
  refine ⟨i, before, later ++ l, ?_, fun d hd ↦ ?_, fun hi ↦ hright (hwrong i hi)⟩
  · rw [hdeeds, hsplit, List.append_assoc, List.cons_append]
  · exact (List.mem_append.mp hd).elim (hlater d) (hmore d)

/-- The last deed with a token is decided by the last deed of all, if it has the token. -/
theorem Opened.of_concat {before : List (Deed ι)} {d : Deed ι} (h : Opened cfg g token expiry)
    (hdeeds : g.deeds = before ++ [d]) (hd : d.token = token) :
    ∃ i, d = .opened i token expiry := by
  obtain ⟨i, before', later, hsplit, hlater, -⟩ := h
  rw [hdeeds] at hsplit
  rcases List.eq_nil_or_concat' later with rfl | ⟨later', d', rfl⟩
  · obtain ⟨-, hlast⟩ := List.append_inj' hsplit rfl
    exact ⟨i, List.singleton_inj.mp hlast⟩
  · rw [← List.cons_append, ← List.append_assoc] at hsplit
    obtain ⟨-, hlast⟩ := List.append_inj' hsplit rfl
    obtain rfl := List.singleton_inj.mp hlast
    exact absurd hd (hlater d (List.mem_append_right later' List.mem_cons_self))

/-- A token that the last deed is not about. -/
theorem Opened.of_append {g' : Gate ι} {l : List (Deed ι)} (h : Opened cfg g' token expiry)
    (hdeeds : g'.deeds = g.deeds ++ l) (hmore : ∀ d ∈ l, d.token ≠ token)
    (hwrong : ∀ i, (g.logins.locals i).Wrong cfg → (g'.logins.locals i).Wrong cfg) :
    Opened cfg g token expiry := by
  obtain ⟨i, before, later, hsplit, hlater, hright⟩ := h
  rw [hdeeds] at hsplit
  obtain ⟨rest, hrest⟩ | ⟨rest, hrest⟩ : (∃ rest, before = g.deeds ++ rest) ∨
      ∃ rest, g.deeds = before ++ .opened i token expiry :: rest := by
    rcases List.append_eq_append_iff.mp hsplit with ⟨rest, hbefore, -⟩ | ⟨rest, hold, hnew⟩
    · exact .inl ⟨rest, hbefore⟩
    · cases rest with
      | nil => exact .inl ⟨[], by rw [hold, List.append_nil, List.append_nil]⟩
      | cons d rest =>
          obtain ⟨rfl, -⟩ := List.cons.inj hnew
          exact .inr ⟨rest, hold⟩
  · rw [hrest, List.append_assoc] at hsplit
    have hmem : Deed.opened i token expiry ∈ l := by
      rw [List.append_cancel_left hsplit]
      exact List.mem_append_right rest List.mem_cons_self
    exact absurd rfl (hmore _ hmem)
  · refine ⟨i, before, rest, hrest, fun d hd ↦ hlater d ?_, fun hi ↦ hright (hwrong i hi)⟩
    rw [hrest, List.append_assoc, List.cons_append] at hsplit
    rw [← List.cons.inj (List.append_cancel_left hsplit) |>.2]
    exact List.mem_append_left l hd

namespace Gate

variable [DecidableEq ι]

variable (decode cfg) in
theorem wrong_step (g : Gate ι) (r : Request ι) (i : ι) :
    ((g.step decode cfg r).logins.locals i).Wrong cfg ↔ (g.logins.locals i).Wrong cfg := by
  cases r with
  | login e =>
      by_cases hi : i = e.login
      · subst hi
        dsimp only [step, Logins.step]
        rw [Pool.locals_step_self]
        exact Login.next_wrong
      · dsimp only [step, Logins.step]
        rw [Pool.locals_step_of_ne hi]
  | access path headers now => rfl
  | logout headers => rfl

theorem sessions_login (decode : List Char → Option Bytes) (cfg : AuthConfig) (g : Gate ι)
    (e : LoginEvent ι) : (g.step decode cfg (.login e)).logins.shared.sessions =
      if (g.logins.locals e.login).stage.isOpening then
        (g.logins.shared.openSession e.token e.first e.now cfg.sessionTtl).sessions
      else g.logins.shared.sessions :=
  Login.next_sessions cfg e.now e.token e.first g.logins.shared (g.logins.locals e.login)

theorem deeds_login (decode : List Char → Option Bytes) (cfg : AuthConfig) (g : Gate ι)
    (e : LoginEvent ι) : (g.step decode cfg (.login e)).deeds =
      g.deeds ++ if (g.logins.locals e.login).stage.isOpening then
        [.opened e.login e.token (e.now + cfg.sessionTtl)] else [] :=
  rfl

/-- Every session in the table was opened by a login with the right credentials. -/
structure Sound (cfg : AuthConfig) (g : Gate ι) : Prop where
  tidy : g.logins.shared.Tidy
  accepted : ∀ i, (g.logins.locals i).stage.accepted = true → ¬ (g.logins.locals i).Wrong cfg
  opened : ∀ s ∈ g.logins.shared.sessions, Opened cfg g s.1 s.2

omit [DecidableEq ι] in
theorem sound_start (cfg : AuthConfig) (credentials : ι → IpAddr × Bytes × Bytes) :
    Sound cfg (start credentials) where
  tidy := ⟨List.nodup_nil, Nat.zero_le _⟩
  accepted _ h := by cases h
  opened _ hs := absurd hs List.not_mem_nil

theorem Sound.accepted_login (h : Sound cfg g) (e : LoginEvent ι) (i : ι) :
    ((g.step decode cfg (.login e)).logins.locals i).stage.accepted = true →
      ¬ ((g.step decode cfg (.login e)).logins.locals i).Wrong cfg := by
  dsimp only [step, Logins.step]
  by_cases hi : i = e.login
  · subst hi
    rw [Pool.locals_step_self]
    exact Login.next_accepted (h.accepted _)
  · rw [Pool.locals_step_of_ne hi]
    exact h.accepted i

theorem Sound.login (h : Sound cfg g) (e : LoginEvent ι) :
    Sound cfg (g.step decode cfg (.login e)) := by
  have hsessions := sessions_login decode cfg g e
  have hdeeds := deeds_login decode cfg g e
  have hwrong := fun i ↦ (wrong_step decode cfg g (.login e) i).mp
  cases hopening : (g.logins.locals e.login).stage.isOpening with
  | false =>
      rw [hopening, if_neg Bool.false_ne_true] at hsessions hdeeds
      refine ⟨⟨?_, ?_⟩, h.accepted_login e, fun s hs ↦ ?_⟩
      · rw [hsessions]
        exact h.tidy.nodup
      · rw [hsessions]
        exact h.tidy.bounded
      · rw [hsessions] at hs
        exact (h.opened s hs).mono hdeeds (fun d hd ↦ absurd hd List.not_mem_nil) hwrong
  | true =>
      rw [hopening, if_pos rfl] at hsessions hdeeds
      have hright : ¬ (g.logins.locals e.login).Wrong cfg := by
        refine h.accepted e.login ?_
        cases hstage : (g.logins.locals e.login).stage with
        | opening => rfl
        | _ => simp [hstage, Stage.isOpening] at hopening
      have htidy := h.tidy.openSession e.token e.first e.now cfg.sessionTtl
      refine ⟨⟨?_, ?_⟩, h.accepted_login e, fun s hs ↦ ?_⟩
      · rw [hsessions]
        exact htidy.nodup
      · rw [hsessions]
        exact htidy.bounded
      · rw [hsessions, AuthManager.openSession_eq] at hs
        rcases List.mem_cons.mp hs with rfl | hs
        · exact ⟨e.login, g.deeds, [], hdeeds, fun d hd ↦ absurd hd List.not_mem_nil,
            fun hi ↦ hright (hwrong e.login hi)⟩
        · obtain ⟨hold, hne⟩ := List.mem_filter.mp hs
          refine (h.opened s ((AuthManager.roomy_sublist _ _ _).subset hold)).mono hdeeds
            (fun d hd ↦ ?_) hwrong
          obtain rfl := List.mem_singleton.mp hd
          have hother : s.1 ≠ e.token := by simpa using hne
          exact hother.symm

/-- The step lemma. -/
theorem Sound.step (h : Sound cfg g) (r : Request ι) : Sound cfg (g.step decode cfg r) := by
  cases r with
  | login e => exact h.login e
  | access path headers now =>
      have hsub : (accessControl decode cfg g.logins.shared path headers now).1.sessions.Sublist
          g.logins.shared.sessions := by
        rcases AuthManager.sessions_accessControl decode cfg g.logins.shared path headers now with
          hsame | hkept
        · rw [hsame]
        · rw [hkept]
          exact List.filter_sublist
      refine ⟨h.tidy.of_sublist hsub, h.accepted, fun s hs ↦ ?_⟩
      exact (h.opened s (hsub.subset hs)).mono (List.append_nil _).symm
        (fun d hd ↦ absurd hd List.not_mem_nil) fun _ hi ↦ hi
  | logout headers =>
      refine ⟨h.tidy.logout headers, h.accepted, fun s hs ↦ ?_⟩
      dsimp only [Gate.step] at hs
      unfold AuthManager.logout at hs
      cases htoken : sessionTokenOf headers with
      | none =>
          rw [htoken] at hs
          refine (h.opened s hs).mono (l := []) ?_ (fun d hd ↦ absurd hd List.not_mem_nil)
            fun _ hi ↦ hi
          dsimp only [Gate.step]
          rw [htoken]
          rfl
      | some token =>
          rw [htoken] at hs
          obtain ⟨hold, hne⟩ := List.mem_filter.mp hs
          refine (h.opened s hold).mono (l := [.closed token]) ?_ (fun d hd ↦ ?_)
            fun _ hi ↦ hi
          · dsimp only [Gate.step]
            rw [htoken]
            rfl
          · obtain rfl := List.mem_singleton.mp hd
            have hother : s.1 ≠ token := by simpa using hne
            exact hother.symm

theorem sound_after (decode : List Char → Option Bytes) (cfg : AuthConfig)
    (credentials : ι → IpAddr × Bytes × Bytes) (requests : List (Request ι)) :
    Sound cfg (after decode cfg credentials requests) :=
  invariant_runFrom_of_step (I := Sound cfg) (fun _ r h ↦ h.step r) requests
    (sound_start cfg credentials)

/-- Whatever requests, logins and logouts there were, in whatever order: a request to a
protected path that is handled has the credentials, or the token of a session that a login
with the right credentials has opened and no logout has closed since. -/
theorem handled_of_credentials (decode : List Char → Option Bytes) (cfg : AuthConfig)
    (credentials : ι → IpAddr × Bytes × Bytes) (requests : List (Request ι)) (path : List Char)
    (headers : Headers) (now : ℕ) :
    let g := after decode cfg credentials requests
    g.logins.shared.sessions.length ≤ maxSessions ∧
      ((accessControl decode cfg g.logins.shared path headers now).2 = .handled →
        isProtected path = false ∨ cfg.enabled = false ∨ Presents decode cfg headers ∨
          ∃ token expiry, sessionTokenOf headers = some token ∧ Opened cfg g token expiry ∧
            now < expiry) := by
  have h := sound_after decode cfg credentials requests
  refine ⟨h.tidy.bounded, fun hhandled ↦ ?_⟩
  refine ((AuthManager.accessControl_iff h.tidy).mp hhandled).imp_right (.imp_right (.imp_right ?_))
  rintro ⟨token, expiry, htoken, hmem, hlive⟩
  exact ⟨token, expiry, htoken, h.opened _ hmem, hlive⟩

/-! ### Sessions last -/

/-- The clock of a request is not behind the ones before, and there is room for a session that
is opened. -/
def Settled (g : Gate ι) : Request ι → Prop
  | .login e => g.clock ≤ e.now ∧ ((g.logins.locals e.login).stage.isOpening = true →
      (g.logins.shared.sessions.filter fun s ↦ decide (e.now < s.2)).length < maxSessions)
  | .access _ _ now => g.clock ≤ now
  | .logout _ => True

instance (g : Gate ι) : DecidablePred (Settled g)
  | .login _ => inferInstanceAs (Decidable (_ ∧ (_ → _)))
  | .access _ _ _ => inferInstanceAs (Decidable (_ ≤ _))
  | .logout _ => .isTrue trivial

/-- A session whose time is not over is in the table. -/
def Lasting (cfg : AuthConfig) (g : Gate ι) : Prop :=
  ∀ token expiry, Opened cfg g token expiry → g.clock < expiry →
    (token, expiry) ∈ g.logins.shared.sessions

theorem Lasting.login (h : Lasting cfg g) {e : LoginEvent ι}
    (hsettled : Settled g (.login e)) : Lasting cfg (g.step decode cfg (.login e)) := by
  intro token expiry hopened hclock
  have hsessions := sessions_login decode cfg g e
  have hdeeds := deeds_login decode cfg g e
  have hwrong := fun i ↦ (wrong_step decode cfg g (.login e) i).mpr
  obtain ⟨hnow, hroom⟩ := hsettled
  have hlive : e.now < expiry := (le_max_right _ _).trans_lt hclock
  rw [hsessions]
  cases hopening : (g.logins.locals e.login).stage.isOpening with
  | false =>
      rw [hopening, if_neg Bool.false_ne_true] at hdeeds
      rw [if_neg Bool.false_ne_true]
      exact h token expiry (hopened.of_append hdeeds (fun d hd ↦ absurd hd List.not_mem_nil) hwrong)
        (hnow.trans_lt hlive)
  | true =>
      rw [hopening, if_pos rfl] at hdeeds
      rw [if_pos rfl, AuthManager.openSession_eq]
      by_cases htoken : token = e.token
      · subst htoken
        obtain ⟨i, hlast⟩ := hopened.of_concat hdeeds rfl
        injection hlast with _ _ hexpiry
        rw [← hexpiry]
        exact List.mem_cons_self
      · have hold := hopened.of_append hdeeds (fun d hd ↦ by
          obtain rfl := List.mem_singleton.mp hd
          exact Ne.symm htoken) hwrong
        have hmem := h token expiry hold (hnow.trans_lt hlive)
        apply List.mem_cons_of_mem
        refine List.mem_filter.mpr ⟨?_, by simpa using htoken⟩
        rw [AuthManager.roomy_of_lt (hroom hopening)]
        exact List.mem_filter.mpr ⟨hmem, decide_eq_true hlive⟩

theorem Lasting.step (h : Lasting cfg g) (r : Request ι) (hsettled : Settled g r) :
    Lasting cfg (g.step decode cfg r) := by
  cases r with
  | login e => exact h.login hsettled
  | access path headers now =>
      intro token expiry hopened hclock
      have hlive : now < expiry := (le_max_right _ _).trans_lt hclock
      have hmem := h token expiry (hopened.of_append (List.append_nil _).symm
        (fun d hd ↦ absurd hd List.not_mem_nil) fun _ hi ↦ hi)
        ((show g.clock ≤ now from hsettled).trans_lt hlive)
      dsimp only [Gate.step]
      rcases AuthManager.sessions_accessControl decode cfg g.logins.shared path headers now with
        hsame | hkept
      · rw [hsame]
        exact hmem
      · rw [hkept]
        exact List.mem_filter.mpr ⟨hmem, decide_eq_true hlive⟩
  | logout headers =>
      intro token expiry hopened hclock
      dsimp only [Gate.step] at hopened ⊢
      unfold AuthManager.logout
      cases htoken : sessionTokenOf headers with
      | none =>
          rw [htoken] at hopened
          exact h token expiry (hopened.of_append (l := []) rfl
            (fun d hd ↦ absurd hd List.not_mem_nil) fun _ hi ↦ hi) hclock
      | some closed =>
          rw [htoken] at hopened
          have hne : closed ≠ token := by
            rintro rfl
            obtain ⟨i, hlast⟩ := hopened.of_concat (d := .closed closed) rfl rfl
            cases hlast
          have hmem := h token expiry (hopened.of_append (l := [.closed closed]) rfl (fun d hd ↦ by
            obtain rfl := List.mem_singleton.mp hd
            exact hne) fun _ hi ↦ hi) hclock
          exact List.mem_filter.mpr ⟨hmem, by simpa using Ne.symm hne⟩

omit [DecidableEq ι] in
theorem lasting_start (cfg : AuthConfig) (credentials : ι → IpAddr × Bytes × Bytes) :
    Lasting cfg (start credentials) := by
  rintro token expiry ⟨i, before, later, hsplit, -⟩
  cases before <;> cases hsplit

/-- While there is room and the clock goes forward, exactly the requests with the credentials or
with the token of a session are handled, until the session is closed or its time is over. -/
theorem handled_iff_credentials (decode : List Char → Option Bytes) (cfg : AuthConfig)
    (credentials : ι → IpAddr × Bytes × Bytes) (requests : List (Request ι)) (path : List Char)
    (headers : Headers) (now : ℕ)
    (hsettled : Along (Gate.step decode cfg) Settled (start credentials) requests)
    (hnow : (after decode cfg credentials requests).clock ≤ now) :
    let g := after decode cfg credentials requests
    (accessControl decode cfg g.logins.shared path headers now).2 = .handled ↔
      isProtected path = false ∨ cfg.enabled = false ∨ Presents decode cfg headers ∨
        ∃ token expiry, sessionTokenOf headers = some token ∧ Opened cfg g token expiry ∧
          now < expiry := by
  have hsound := sound_after decode cfg credentials requests
  have hlasting : Lasting cfg (after decode cfg credentials requests) :=
    invariant_runFrom (I := Lasting cfg) (fun _ r h hr ↦ h.step r hr) (lasting_start cfg credentials)
      hsettled
  constructor
  · intro hhandled
    refine ((AuthManager.accessControl_iff hsound.tidy).mp hhandled).imp_right
      (.imp_right (.imp_right ?_))
    rintro ⟨token, expiry, htoken, hmem, hlive⟩
    exact ⟨token, expiry, htoken, hsound.opened _ hmem, hlive⟩
  · intro hcredentials
    refine (AuthManager.accessControl_iff hsound.tidy).mpr
      (hcredentials.imp_right (.imp_right (.imp_right ?_)))
    rintro ⟨token, expiry, htoken, hopened, hlive⟩
    exact ⟨token, expiry, htoken, hlasting token expiry hopened (hnow.trans_lt hlive), hlive⟩

end Gate

end

/-- The credentials as a client writes them. -/
def decodeAdmin (text : List Char) : Option Bytes :=
  if text = "YWQ6cw==".toList then some [97, 100, 58, 115] else none

def adminHeaders : Headers := ⟨some "Basic YWQ6cw==".toList, none⟩

def visitToken : SessionToken := sessionTokenText 7 9

/-- A visitor logs in, and a script with the credentials comes by. -/
def visit : List (Request (Fin 1)) :=
  [.login ⟨0, 1, [], 0⟩, .login ⟨0, 2, [], 0⟩, .login ⟨0, 3, [], 0⟩, .login ⟨0, 4, visitToken, 0⟩,
    .access "/api/flows".toList adminHeaders 5]

def visitors (_ : Fin 1) : IpAddr × Bytes × Bytes := (guesser, [97, 100], [115])

/-- The browser keeps the cookie. -/
def visitHeaders : Headers :=
  ⟨none, some (cookieHeader [themeCookie, sessionCookieOf 7 9])⟩

theorem Gate.handled_iff_credentials_visit :
    let g := Gate.after decodeAdmin adminAuth visitors visit
    (accessControl decodeAdmin adminAuth g.logins.shared "/api/flows".toList visitHeaders 6).2 =
      .handled := by
  refine (Gate.handled_iff_credentials decodeAdmin adminAuth visitors visit _ visitHeaders 6
    (by decide +kernel) (by decide +kernel)).mpr (.inr (.inr (.inr
      ⟨visitToken, 4 + adminAuth.sessionTtl, ?_, ⟨0, [], [], ?_, ?_, ?_⟩, ?_⟩)))
  · exact sessionTokenOf_cookieHeader (h := visitHeaders) rfl
  · decide +kernel
  · exact fun d hd ↦ absurd hd List.not_mem_nil
  · rintro (hname | hpassword)
    · exact hname rfl
    · exact hpassword rfl
  · decide

end Bazalt.Api
