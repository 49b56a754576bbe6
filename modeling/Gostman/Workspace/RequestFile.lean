import Gostman.Workspace.JsonText
/-!
# Request files (`workspace/requestfile.go`, `workspace/authsections.go`)

A request is written as a mapping of the fields that differ from their
defaults, and read from one.  The fields a file has beside the known ones are
held with the request and written again.
-/

namespace Gostman.Workspace

def emptyObject := "\x7b\x7d"
def emptyList := "[]"
def defaultGrant := "client_credentials"

/-! ## The data -/

abbrev Texts (keys : List String) := Vector String keys.length

def noTexts (keys : List String) : Texts keys :=
  Vector.replicate keys.length ""

def awsFields := ["accessKey", "secretKey", "sessionToken", "region", "service"]

def oauth1Fields :=
  ["consumerKey", "consumerSecret", "token", "tokenSecret", "signatureMethod", "privateKey",
    "realm", "callback", "verifier", "nonce", "timestamp", "in"]

def edgeGridFields :=
  ["clientToken", "clientSecret", "accessToken", "nonce", "timestamp", "headersToSign", "maxBody"]

def jwtFields :=
  ["algorithm", "secret", "secretEncoding", "privateKey", "payload", "header", "in", "prefix",
    "queryKey", "expiry"]

def wsSecurityFields := ["username", "password", "passwordType", "timestamp"]

def asapFields :=
  ["algorithm", "issuer", "subject", "audience", "keyId", "privateKey", "claims", "expiry"]

def hawkFields :=
  ["id", "key", "algorithm", "ext", "app", "dlg", "nonce", "timestamp", "payloadHash"]

structure OAuth2 where
  grant : String := ""
  authURL : String := ""
  tokenURL : String := ""
  clientID : String := ""
  clientSecret : String := ""
  scope : String := ""
  username : String := ""
  password : String := ""
  callbackURL : String := ""
  credentialsIn : String := ""
  pkce : Bool := false
  headerPrefix : String := ""
  accessToken : String := ""
  refreshToken : String := ""
  expiresAt : Int := 0
  resource : String := ""
  issuer : String := ""
  deviceURL : String := ""
  sendIDToken : Bool := false
  idToken : String := ""
  tokenEnvironment : String := ""
deriving DecidableEq

structure Auth where
  type : String := ""
  username : String := ""
  password : String := ""
  token : String := ""
  key : String := ""
  value : String := ""
  placedIn : String := ""
  oauth2 : OAuth2 := {}
  domain : String := ""
  aws : Texts awsFields := noTexts _
  oauth1 : Texts oauth1Fields := noTexts _
  edgeGrid : Texts edgeGridFields := noTexts _
  jwt : Texts jwtFields := noTexts _
  asap : Texts asapFields := noTexts _
  hawk : Texts hawkFields := noTexts _
  wsSecurity : Texts wsSecurityFields := noTexts _
deriving DecidableEq

structure Options where
  timeoutMs : Int := 0
  noFollowRedirects : Bool := false
  insecureTLS : Bool := false
  stream : Bool := false
  streamReconnect : Bool := false
  streamMaxEvents : Int := 0
  streamMaxSeconds : Int := 0
  skipCookies : Bool := false
  discardCookies : Bool := false
  httpVersion : String := ""
  rpcTransport : String := ""
  socketIOPath : String := ""
  socketIOAuth : String := ""
deriving DecidableEq

structure Request where
  id : String := ""
  name : String := ""
  description : String := ""
  tags : List String := []
  url : String := ""
  method : String := ""
  headers : String := ""
  body : String := ""
  bodyType : String := ""
  queryParams : String := ""
  folderId : String := ""
  graphqlQuery : String := ""
  graphqlVariables : String := ""
  auth : Auth := {}
  options : Options := {}
  extractors : String := ""
  assertions : String := ""
  examples : String := ""
  preScript : String := ""
  postScript : String := ""
  grpcMethod : String := ""
  grpcMessage : String := ""
  grpcProtos : String := ""
  mcpMethod : String := ""
  mcpTool : String := ""
  mcpArguments : String := ""
  socketProtocol : String := ""
  socketMessages : String := ""
  vars : String := ""
  notes : String := ""
  jsonDepth : String := ""
  defaultView : String := ""
  timestamp : String := ""
  sortOrder : Int := 0
deriving DecidableEq

/-- The fields of a file that are not known, for each mapping they stand in. -/
structure RequestExtras where
  request : Fields := []
  auth : Fields := []
  oauth2 : Fields := []
  options : Fields := []

structure RequestDocument where
  request : Request
  order : Int
  extras : RequestExtras

def requestKeys :=
  ["id", "name", "description", "tags", "order", "method", "url", "queryParams", "headers", "auth",
    "bodyType", "body", "graphqlQuery", "graphqlVariables", "grpcMethod", "grpcMessage",
    "grpcProtos", "mcpMethod", "mcpTool", "mcpArguments", "socketProtocol", "socketMessages",
    "vars", "options", "extractors", "assertions", "preScript", "postScript", "examples", "notes",
    "jsonDepth", "defaultView", "timestamp"]

def requestMarkers := ["method", "url"]

def authKeys :=
  ["type", "username", "password", "token", "key", "value", "in", "oauth2", "domain", "aws",
    "oauth1", "edgegrid", "jwt", "asap", "hawk", "wssecurity"]

def oauth2Keys :=
  ["grant", "authUrl", "tokenUrl", "clientId", "clientSecret", "scope", "username", "password",
    "callbackUrl", "credentialsIn", "pkce", "headerPrefix", "accessToken", "refreshToken",
    "expiresAt", "resource", "issuer", "deviceUrl", "sendIdToken"]

def optionKeys :=
  ["timeoutMs", "noFollowRedirects", "insecureTLS", "stream", "streamReconnect", "streamMaxEvents",
    "streamMaxSeconds", "skipCookies", "discardCookies", "socketIoPath", "socketIoAuth",
    "httpVersion", "rpcTransport"]

/-! ## Writing -/

def isRowBody (bodyType : String) : Bool :=
  bodyType = "form" || bodyType = "multipart"

def isEmptyPairs (text : String) : Bool :=
  text = "" || text = emptyObject || text = emptyList

def OAuth2.withoutTokens (config : OAuth2) : OAuth2 :=
  { config with accessToken := "", refreshToken := "", idToken := "", expiresAt := 0,
                tokenEnvironment := "" }

def withOAuth2Defaults (config : OAuth2) : OAuth2 :=
  if config.withoutTokens = {} then { grant := defaultGrant, pkce := true } else config

namespace NodeBuilder

def pairs (b : NodeBuilder) (text : String) : Option Node :=
  if isEmptyPairs text then none else b.rows text

def body (b : NodeBuilder) (request : Request) : Option Node :=
  if isRowBody request.bodyType then b.rows request.body
  else if request.bodyType = "binary" then b.jsonText request.body
  else b.text request.body

def graphqlVariables (b : NodeBuilder) (text : String) : Option Node :=
  if text = emptyObject then none else b.text text

def textSection (b : NodeBuilder) (keys : List String) (values : Texts keys) : Option Node :=
  filledMapping (setFields (keys.zip (values.toList.map b.text)))

def oauth2 (b : NodeBuilder) (config : OAuth2) (extras : Fields) : Option Node :=
  let config := withOAuth2Defaults config
  filledMapping (setFields [
    ("grant", if config.grant ≠ defaultGrant then some (b.explicitText config.grant) else none),
    ("authUrl", b.text config.authURL),
    ("tokenUrl", b.text config.tokenURL),
    ("clientId", b.text config.clientID),
    ("clientSecret", b.text config.clientSecret),
    ("scope", b.text config.scope),
    ("username", b.text config.username),
    ("password", b.text config.password),
    ("callbackUrl", b.text config.callbackURL),
    ("credentialsIn", b.text config.credentialsIn),
    ("pkce", if config.pkce then none else some (flagNode false)),
    ("headerPrefix", b.text config.headerPrefix),
    ("resource", b.text config.resource),
    ("issuer", b.text config.issuer),
    ("deviceUrl", b.text config.deviceURL),
    ("sendIdToken", setFlagNode config.sendIDToken)] ++ extras)

def auth (b : NodeBuilder) (auth : Auth) (extras : RequestExtras) : Option Node :=
  filledMapping (setFields [
    ("type", b.text auth.type),
    ("username", b.text auth.username),
    ("password", b.text auth.password),
    ("token", b.text auth.token),
    ("key", b.text auth.key),
    ("value", b.text auth.value),
    ("in", b.text auth.placedIn),
    ("oauth2", b.oauth2 auth.oauth2 extras.oauth2),
    ("domain", b.text auth.domain),
    ("aws", b.textSection awsFields auth.aws),
    ("oauth1", b.textSection oauth1Fields auth.oauth1),
    ("edgegrid", b.textSection edgeGridFields auth.edgeGrid),
    ("jwt", b.textSection jwtFields auth.jwt),
    ("asap", b.textSection asapFields auth.asap),
    ("hawk", b.textSection hawkFields auth.hawk),
    ("wssecurity", b.textSection wsSecurityFields auth.wsSecurity)] ++ extras.auth)

def options (b : NodeBuilder) (options : Options) (extras : Fields) : Option Node :=
  filledMapping (setFields [
    ("timeoutMs", integerNode options.timeoutMs),
    ("noFollowRedirects", setFlagNode options.noFollowRedirects),
    ("insecureTLS", setFlagNode options.insecureTLS),
    ("stream", setFlagNode options.stream),
    ("streamReconnect", setFlagNode options.streamReconnect),
    ("streamMaxEvents", integerNode options.streamMaxEvents),
    ("streamMaxSeconds", integerNode options.streamMaxSeconds),
    ("skipCookies", setFlagNode options.skipCookies),
    ("discardCookies", setFlagNode options.discardCookies),
    ("socketIoPath", b.text options.socketIOPath),
    ("socketIoAuth", b.text options.socketIOAuth),
    ("httpVersion", b.text options.httpVersion),
    ("rpcTransport", b.text options.rpcTransport)] ++ extras)

section

variable (out : Outside)

def request (b : NodeBuilder) (document : RequestDocument) : Node :=
  let request := document.request
  mappingNode (setFields [
    ("id", b.text request.id),
    ("name", b.text request.name),
    ("description", b.text request.description),
    ("tags", b.textList (normalizeTags out request.tags)),
    ("order", integerNode document.order),
    ("method", b.text request.method),
    ("url", b.text request.url),
    ("queryParams", b.pairs request.queryParams),
    ("headers", b.pairs request.headers),
    ("auth", b.auth request.auth document.extras),
    ("bodyType", b.text request.bodyType),
    ("body", b.body request),
    ("graphqlQuery", b.text request.graphqlQuery),
    ("graphqlVariables", b.graphqlVariables request.graphqlVariables),
    ("grpcMethod", b.text request.grpcMethod),
    ("grpcMessage", b.text request.grpcMessage),
    ("grpcProtos", b.jsonText request.grpcProtos),
    ("mcpMethod", b.text request.mcpMethod),
    ("mcpTool", b.text request.mcpTool),
    ("mcpArguments", b.text request.mcpArguments),
    ("socketProtocol", b.text request.socketProtocol),
    ("socketMessages", b.jsonText request.socketMessages),
    ("vars", b.pairs request.vars),
    ("options", b.options request.options document.extras.options),
    ("extractors", b.rows request.extractors),
    ("assertions", b.rows request.assertions),
    ("preScript", b.text request.preScript),
    ("postScript", b.text request.postScript),
    ("examples", b.jsonText request.examples),
    ("notes", b.jsonText request.notes),
    ("jsonDepth", b.text request.jsonDepth),
    ("defaultView", b.text request.defaultView),
    ("timestamp", b.text request.timestamp)] ++ document.extras.request)

end

end NodeBuilder

/-! ## Reading -/

section

variable (out : Outside)

namespace FieldReader

def pairs (r : FieldReader) (key : String) : Checked String :=
  if r.has key then r.jsonText out key false withEnabledDefaults else .ok emptyObject

def body (r : FieldReader) (bodyType : String) : Checked String :=
  if isRowBody bodyType then r.jsonText out "body" false withEnabledDefaults
  else r.jsonText out "body" false id

def graphqlVariables (r : FieldReader) : Checked String :=
  if r.has "graphqlVariables" then r.text out "graphqlVariables" else .ok emptyObject

end FieldReader

def readSection (node : Option Node) (keys : List String) : Checked (Texts keys) := do
  let reader ← readFields node keys
  (⟨keys.toArray, rfl⟩ : Texts keys).mapM (reader.text out)

def readOAuth2 (node : Option Node) : Checked (OAuth2 × Fields) := do
  let fields ← readFields node oauth2Keys
  let config : OAuth2 := {
    grant := defaultGrant
    authURL := ← fields.text out "authUrl"
    tokenURL := ← fields.text out "tokenUrl"
    clientID := ← fields.text out "clientId"
    clientSecret := ← fields.text out "clientSecret"
    scope := ← fields.text out "scope"
    username := ← fields.text out "username"
    password := ← fields.text out "password"
    callbackURL := ← fields.text out "callbackUrl"
    credentialsIn := ← fields.text out "credentialsIn"
    pkce := ← fields.flag out "pkce" true
    headerPrefix := ← fields.text out "headerPrefix"
    resource := ← fields.text out "resource"
    issuer := ← fields.text out "issuer"
    deviceURL := ← fields.text out "deviceUrl"
    sendIDToken := ← fields.flag out "sendIdToken" false }
  if fields.has "grant" then
    return ({ config with grant := ← fields.text out "grant" }, fields.extras)
  else return (config, fields.extras)

def readAuth (node : Option Node) : Checked (Auth × Fields × Fields) := do
  let fields ← readFields node authKeys
  let auth : Auth := {
    type := ← fields.text out "type"
    username := ← fields.text out "username"
    password := ← fields.text out "password"
    token := ← fields.text out "token"
    key := ← fields.text out "key"
    value := ← fields.text out "value"
    placedIn := ← fields.text out "in"
    domain := ← fields.text out "domain"
    aws := ← readSection out (fields.get "aws") awsFields
    oauth1 := ← readSection out (fields.get "oauth1") oauth1Fields
    edgeGrid := ← readSection out (fields.get "edgegrid") edgeGridFields
    jwt := ← readSection out (fields.get "jwt") jwtFields
    asap := ← readSection out (fields.get "asap") asapFields
    hawk := ← readSection out (fields.get "hawk") hawkFields
    wsSecurity := ← readSection out (fields.get "wssecurity") wsSecurityFields }
  let (oauth2, extras) ← readOAuth2 out (fields.get "oauth2")
  return ({ auth with oauth2 := oauth2 }, fields.extras, extras)

def parseChoice (label value : String) (allowed : List String) : Checked String :=
  let choice := Go.trimSpace value
  if choice ∈ allowed then .ok choice
  else .error ⟨0, label ++ " " ++ out.quoted value ++ " is not supported; choose one of [" ++
    " ".intercalate (allowed.map out.quoted) ++ "]", false⟩

def parseHTTPVersion (value : String) : Checked String :=
  parseChoice out "the HTTP version" value ["", "1.1", "2"]

def parseRPCTransport (value : String) : Checked String :=
  parseChoice out "the gRPC transport" value ["", "grpc-web", "grpc-web-text", "connect"]

def readOptions (node : Option Node) : Checked (Options × Fields) := do
  let fields ← readFields node optionKeys
  let options : Options := {
    timeoutMs := ← fields.integer out "timeoutMs"
    noFollowRedirects := ← fields.flag out "noFollowRedirects" false
    insecureTLS := ← fields.flag out "insecureTLS" false
    stream := ← fields.flag out "stream" false
    streamReconnect := ← fields.flag out "streamReconnect" false
    streamMaxEvents := ← fields.integer out "streamMaxEvents"
    streamMaxSeconds := ← fields.integer out "streamMaxSeconds"
    skipCookies := ← fields.flag out "skipCookies" false
    discardCookies := ← fields.flag out "discardCookies" false
    socketIOPath := ← fields.text out "socketIoPath"
    socketIOAuth := ← fields.text out "socketIoAuth" }
  let httpVersion ← parseHTTPVersion out (← fields.text out "httpVersion")
  let rpcTransport ← parseRPCTransport out (← fields.text out "rpcTransport")
  return ({ options with httpVersion := httpVersion, rpcTransport := rpcTransport }, fields.extras)

def readRequest (root : Node) : Checked RequestDocument := do
  let fields ← readFields (some root) requestKeys
  let order ← fields.integer out "order"
  let bodyType ← fields.text out "bodyType"
  let id ← fields.text out "id"
  let name ← fields.text out "name"
  let description ← fields.text out "description"
  let tags ← fields.textList out "tags"
  let url ← fields.text out "url"
  let method ← fields.text out "method"
  let headers ← fields.pairs out "headers"
  let body ← fields.body out bodyType
  let queryParams ← fields.pairs out "queryParams"
  let graphqlQuery ← fields.text out "graphqlQuery"
  let graphqlVariables ← fields.graphqlVariables out
  let (auth, authExtras, oauth2Extras) ← readAuth out (fields.get "auth")
  let (options, optionExtras) ← readOptions out (fields.get "options")
  let request : Request := {
    id, name, description, url, method, headers, body, bodyType, queryParams, graphqlQuery
    graphqlVariables, auth, options
    tags := normalizeTags out tags
    extractors := ← fields.jsonText out "extractors" false withEnabledDefaults
    assertions := ← fields.jsonText out "assertions" false withEnabledDefaults
    preScript := ← fields.text out "preScript"
    postScript := ← fields.text out "postScript"
    grpcMethod := ← fields.text out "grpcMethod"
    grpcMessage := ← fields.text out "grpcMessage"
    grpcProtos := ← fields.jsonText out "grpcProtos" false (fun node => node)
    mcpMethod := ← fields.text out "mcpMethod"
    mcpTool := ← fields.text out "mcpTool"
    mcpArguments := ← fields.text out "mcpArguments"
    socketProtocol := ← fields.text out "socketProtocol"
    socketMessages := ← fields.jsonText out "socketMessages" false (fun node => node)
    vars := ← fields.pairs out "vars"
    examples := ← fields.jsonText out "examples" false (fun node => node)
    notes := ← fields.jsonText out "notes" false (fun node => node)
    jsonDepth := ← fields.text out "jsonDepth"
    defaultView := ← fields.text out "defaultView"
    timestamp := ← fields.text out "timestamp" }
  return {
    request, order
    extras := {
      request := fields.extras, auth := authExtras, oauth2 := oauth2Extras, options := optionExtras } }

def isRequestDocument (root : Node) : Bool :=
  root.fields.any fun field => field.1.value ∈ requestMarkers

def readRequestFile (root : Node) : Checked RequestDocument :=
  if isRequestDocument root then readRequest out root
  else .error ⟨0, "not a request", true⟩

end

end Gostman.Workspace
