import TinyRedis.ZSetCommandsProofs

/-! # CLIENT, CONFIG, SCAN, INFO and QUIT

    These commands do not touch the keys.  What they report comes from the
    process: the platform, the configuration, and the replication metadata that
    a callback supplies. -/

namespace TinyDb

open GoString GoStrconv TinyResp

/-- The fields of `config.Config` that CONFIG GET reports. -/
structure ServerConfig where
  host : Bytes
  port : Int
  logDir : Bytes
  logLevel : Bytes
  nodeID : Bytes

/-- The defaults of package `config`. -/
def defaultConfig : ServerConfig :=
  ⟨ascii "0.0.0.0", 6379, ascii "./", ascii "info", ascii "node-1"⟩

/-- The process a `MemDb` lives in. -/
structure Host where
  /-- `runtime.GOOS`, `runtime.GOARCH` and `runtime.Version()`. -/
  goos : Bytes
  goarch : Bytes
  version : Bytes
  /-- `os.Getpid()`. -/
  pid : Int
  /-- `config.Configures`, which can be nil. -/
  config : Option ServerConfig
  /-- `replicationFetcher`, which can be nil, and what it returns. -/
  replication : Option Reply
  /-- `filepath.Match` of the platform; none is `ErrBadPattern`. -/
  fileMatch : Bytes → Bytes → Option Bool

variable {F : Type} [UnicodeTables]

/-- `client`. -/
def client (_ : Command) : Cmd F reads Reply := return bulkReply (some (ascii "OK"))

/-- `scan`. -/
def scan (_ : Command) : Cmd F reads Reply := return bulkReply none

/-- `quit`. -/
def quit (_ : Command) : Cmd F reads Reply := return bulkReply (some (ascii "OK"))

/-! ## CONFIG -/

/-- `configPairs`. -/
def configPairs (cfg : Option ServerConfig) : List (Bytes × Bytes) :=
  let cfg := cfg.getD defaultConfig
  [(ascii "appendonly", ascii "no"), (ascii "save", []), (ascii "databases", ascii "16"),
    (ascii "maxmemory", ascii "0"), (ascii "maxclients", ascii "4096"),
    (ascii "bind", cfg.host), (ascii "port", itoa cfg.port), (ascii "dir", cfg.logDir),
    (ascii "loglevel", cfg.logLevel), (ascii "node-id", cfg.nodeID)]

/-- `matchConfigPattern`. -/
def matchConfigPattern (host : Host) (pattern key : Bytes) : Bool :=
  if pattern = ascii "*" then true else (host.fileMatch pattern key).getD (key == pattern)

/-- `infoConfig`. -/
def infoConfig (host : Host) (cmd : Command) : Cmd F reads Reply := do
  if cmd.length < 2 then
    return errReply "ERR wrong number of arguments for 'config' command"
  let sub := toLower (← strAt cmd 1)
  if sub = ascii "get" then
    if cmd.length ≠ 3 then
      return errReply "ERR wrong number of arguments for 'config get'"
    let pattern := toLower (← strAt cmd 2)
    let pairs := (configPairs host.config).filter fun pair =>
      matchConfigPattern host pattern pair.1
    return bulksReply (pairs.flatMap fun pair => [some pair.1, some pair.2])
  else if sub = ascii "set" then
    if cmd.length ≠ 4 then
      return errReply "ERR wrong number of arguments for 'config set'"
    return statusReply "OK"
  else if sub = ascii "resetstat" then
    if cmd.length ≠ 2 then
      return errReply "ERR wrong number of arguments for 'config resetstat'"
    return statusReply "OK"
  else
    return errReply "ERR unsupported CONFIG subcommand"

/-! ## INFO -/

/-- `formatServerSection`, at unix time `now`. -/
def formatServerSection (host : Host) (now : Int) : Bytes :=
  ascii "# Server\n" ++ ascii "redis_mode:cluster\n" ++
    ascii "os:" ++ host.goos ++ ascii " " ++ host.goarch ++ ascii "\n" ++
    ascii "go_version:" ++ host.version ++ ascii "\n" ++
    ascii "process_id:" ++ itoa host.pid ++ ascii "\n" ++
    ascii "server_time_unix:" ++ itoa now ++ ascii "\n"

/-- `formatReplicationSection`. -/
def formatReplicationSection (host : Host) : Bytes :=
  match host.replication with
  | none =>
    ascii "# Replication\n" ++ ascii "role:unknown\n" ++
      ascii "detail:replication_metadata_unavailable\n"
  | some none => ascii "# Replication\n" ++ ascii "role:loading\n"
  | some (some data) =>
    let payload := str (byteData data)
    if isBlank payload then ascii "# Replication\n" ++ ascii "role:loading\n"
    else
      let trimmed := trimLeft payload (ascii "\r\n\t ")
      if hasPrefix trimmed (ascii "# Replication") then trimmed
      else
        ascii "# Replication\n" ++ trimmed ++
          if hasSuffix trimmed (ascii "\n") then [] else ascii "\n"

/-- `section` with its first rune in title case. -/
def titled (sect : Bytes) : Bytes :=
  match runes sect with
  | [] => []
  | r :: rs => ofRunes (unicodeToTitle r :: rs)

/-- `info`. -/
def info (host : Host) (cmd : Command) : Cmd F reads Reply :=
  named cmd "info" (errReply "server error") do
    if cmd.length > 2 then
      return errReply "error: command args number is invalid"
    let arg ← if cmd.length = 2 then strAt cmd 1 else pure []
    let sect := toLower arg
    if sect = [] then
      let now ← timeNow
      return bulkReply (some (formatServerSection host now ++ ascii "\n" ++
        formatReplicationSection host))
    else if sect = ascii "replication" then
      return bulkReply (some (formatReplicationSection host))
    else
      return bulkReply (some (ascii "# " ++ titled sect ++ ascii "\n" ++
        ascii "warning:section_" ++ sect ++ ascii "_not_available\n"))

end TinyDb
