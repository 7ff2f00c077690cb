import Rollcall.Admission.Quota
import Rollcall.Config.Basic
import Rollcall.Number.Power
import Rollcall.Time.SpanText

/-! The configuration of the service: where it listens, whom it lets through and how often, and where it
stores what it accepts. -/

namespace Rollcall

namespace Config

/-- The largest block that is stored without remark, in bytes. -/
def largestBlock : Nat := 1000000

structure WhitelistTable where
  enabled : Bool := false
  path : Option String := none
  /-- The column of the keys. -/
  column : String := "public_key"
  /-- Nanoseconds between two readings of the table. -/
  refreshInterval : Nat := 10 * Span.minute

namespace WhitelistTable

def ofSetting (v : Setting) : Option WhitelistTable := do
  let f ← v.fields? ["enabled", "path", "column", "refresh_interval"]
  return {
    enabled := ← f.withDefault "enabled" false Setting.boolean?
    path := ← f.optional "path" Setting.text?
    column := ← f.withDefault "column" "public_key" Setting.text?
    refreshInterval := ← f.withDefault "refresh_interval" (10 * Span.minute)
      fun v => v.text?.bind Span.read? }

def check (w : WhitelistTable) : Check := do
  if w.enabled then
    if w.path.isNone then throw (.missing "whitelist.path")
    require "whitelist.column" w.column
    mustBePositive "whitelist.refresh_interval" w.refreshInterval

end WhitelistTable

/-- Submissions of one submitter in an hour. -/
def hourlyLimit (v : Setting) : Option Nat := do
  let f ← v.fields? ["requests_per_pk_hourly"]
  f.withDefault "requests_per_pk_hourly" Quota.defaultLimit (Setting.natural? Setting.greatestUnsigned)

/-- A bucket, which is named by an account and a suffix. -/
structure BucketAccess where
  region : String
  account : String
  suffix : String
  keyId : Option String := none
  secret : Option String := none
  endpoint : Option String := none

namespace BucketAccess

def fieldNames : List String :=
  ["region", "account_id", "bucket_name_suffix", "access_key_id", "secret_access_key", "endpoint"]

def ofFields (f : Setting.Fields) : Option BucketAccess := do
  return {
    region := ← f.required "region" Setting.exactText?
    account := ← f.required "account_id" Setting.exactText?
    suffix := ← f.required "bucket_name_suffix" Setting.exactText?
    keyId := ← f.optional "access_key_id" Setting.exactText?
    secret := ← f.optional "secret_access_key" Setting.exactText?
    endpoint := ← f.optional "endpoint" Setting.exactText? }

def bucketName (b : BucketAccess) : String := b.account ++ "-" ++ b.suffix

/-- The names are there. -/
def checkNames (b : BucketAccess) (table : String) : Check := do
  require (table ++ ".region") b.region
  require (table ++ ".account_id") b.account
  require (table ++ ".bucket_name_suffix") b.suffix

end BucketAccess

structure KeyspaceAccess where
  region : String
  keyspace : String
  endpoint : Option String := none
  certificatePath : Option String := none
  username : Option String := none
  password : Option String := none
  separateBlocks : Bool := false

namespace KeyspaceAccess

def fieldNames : List String :=
  ["region", "keyspace", "endpoint", "ssl_certificate_path", "username", "password",
    "store_blocks_separately"]

def ofFields (f : Setting.Fields) : Option KeyspaceAccess := do
  return {
    region := ← f.required "region" Setting.exactText?
    keyspace := ← f.required "keyspace" Setting.exactText?
    endpoint := ← f.optional "endpoint" Setting.exactText?
    certificatePath := ← f.optional "ssl_certificate_path" Setting.exactText?
    username := ← f.optional "username" Setting.exactText?
    password := ← f.optional "password" Setting.exactText?
    separateBlocks := ← f.withDefault "store_blocks_separately" false Setting.exactBoolean? }

/-- The endpoint, or that of the region. -/
def contactPoint (k : KeyspaceAccess) : String :=
  k.endpoint.getD ("cassandra." ++ k.region ++ ".amazonaws.com:9142")

/-- The endpoint of a region is always encrypted, another one if a certificate is given. -/
def usesTls (k : KeyspaceAccess) : Bool := k.endpoint.isNone || k.certificatePath.isSome

def check (k : KeyspaceAccess) : Check := do
  require "storage.keyspace" k.keyspace
  if k.endpoint.isNone then require "storage.region" k.region
  together k.username k.password "storage.username" "username and password must be set together"

end KeyspaceAccess

structure PostgresAccess where
  host : String
  port : Nat := 5432
  user : String
  password : String := ""
  database : String
  sslMode : String := "disable"
  maxConnections : Nat := 10

namespace PostgresAccess

def fieldNames : List String :=
  ["host", "port", "user", "password", "database", "ssl_mode", "max_connections"]

def ofFields (f : Setting.Fields) : Option PostgresAccess := do
  return {
    host := ← f.required "host" Setting.exactText?
    port := ← f.withDefault "port" 5432 (Setting.exactNatural? (twoTo 16 - 1))
    user := ← f.required "user" Setting.exactText?
    password := ← f.withDefault "password" "" Setting.exactText?
    database := ← f.required "database" Setting.exactText?
    sslMode := ← f.withDefault "ssl_mode" "disable" Setting.exactText?
    maxConnections := ← f.withDefault "max_connections" 10 (Setting.exactNatural? (twoTo 32 - 1)) }

def check (p : PostgresAccess) : Check := do
  require "storage.host" p.host
  require "storage.user" p.user
  require "storage.database" p.database
  mustBePositive "storage.max_connections" p.maxConnections

end PostgresAccess

inductive StorageAccess where
  | objectStore (b : BucketAccess)
  | keyspaces (k : KeyspaceAccess)
  | postgres (p : PostgresAccess)
  | filesystem (path : String)

namespace StorageAccess

def name : StorageAccess → String
  | .objectStore _ => "object_store"
  | .keyspaces _ => "keyspaces"
  | .postgres _ => "postgres"
  | .filesystem _ => "filesystem"

def fieldNames (backend : String) : Option (List String) :=
  [("object_store", BucketAccess.fieldNames), ("keyspaces", KeyspaceAccess.fieldNames),
    ("postgres", PostgresAccess.fieldNames), ("filesystem", ["path"])].lookup backend

def ofSetting (v : Setting) : Option StorageAccess := do
  let (backend, f) ← v.tagged? "backend" fieldNames
  if backend = "object_store" then (BucketAccess.ofFields f).map .objectStore
  else if backend = "keyspaces" then (KeyspaceAccess.ofFields f).map .keyspaces
  else if backend = "postgres" then (PostgresAccess.ofFields f).map .postgres
  else (f.required "path" Setting.exactText?).map .filesystem

def check : StorageAccess → Check
  | .objectStore b => do
    b.checkNames "storage"
    together b.keyId b.secret "storage.access_key_id"
      "access key id and secret access key must be set together"
  | .keyspaces k => k.check
  | .postgres p => p.check
  | .filesystem path => if path = "" then throw (.missing "storage.path") else pure ()

end StorageAccess

end Config

structure ServiceConfig where
  /-- The network's name, which begins the keys of an object store. -/
  networkName : String
  listen : SocketAddress := .anywhere 8080
  logging : Config.Logging := {}
  metrics : Config.MetricsEndpoint := {}
  whitelist : Config.WhitelistTable := {}
  hourlyLimit : Nat := Quota.defaultLimit
  maxBlockSize : Nat := Config.largestBlock
  storage : Config.StorageAccess

namespace ServiceConfig

open Config

def ofSetting (v : Setting) : Option ServiceConfig := do
  let f ← v.fields? []
  return {
    networkName := ← f.required "network_name" Setting.text?
    listen := ← f.withDefault "listen_addr" (.anywhere 8080) address?
    logging := ← f.withDefault "logging" {} Logging.ofSetting
    metrics := ← f.withDefault "metrics" {} MetricsEndpoint.ofSetting
    whitelist := ← f.withDefault "whitelist" {} WhitelistTable.ofSetting
    hourlyLimit := ← f.withDefault "rate_limit" Quota.defaultLimit Config.hourlyLimit
    maxBlockSize := ← f.withDefault "max_block_size" largestBlock
      (Setting.natural? Setting.greatestUnsigned)
    storage := ← f.required "storage" StorageAccess.ofSetting }

def check (c : ServiceConfig) : Check := do
  require "network_name" c.networkName
  mustBePositive "max_block_size" c.maxBlockSize
  c.whitelist.check
  mustBePositive "rate_limit.requests_per_pk_hourly" c.hourlyLimit
  c.storage.check

/-- The configuration in a file, with what the environment says over it. -/
def load (file : Option ByteArray) (environment : List (String × String)) :
    Except ConfigError ServiceConfig := do
  match (Setting.load? file environment).bind ofSetting with
  | none => throw .load
  | some c =>
    c.check
    return c

end ServiceConfig

end Rollcall
