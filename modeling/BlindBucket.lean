import BlindBucket.Audit.Exact
import BlindBucket.Audit.Expected
import BlindBucket.Audit.Exporter
import BlindBucket.Auth.SignedUpload
import BlindBucket.Cloud.Owners
import BlindBucket.Cloud.TagRotation
import BlindBucket.Freshness.Compaction
import BlindBucket.Gc.Forged
import BlindBucket.Keys.Lifecycle
import BlindBucket.Keys.Relabel
import BlindBucket.Keys.Resolution
import BlindBucket.Names.Selection
import BlindBucket.Proxy.ListPages
import BlindBucket.Proxy.MultipartRange
import BlindBucket.Proxy.RangeLies
import BlindBucket.Proxy.RangeSlice
import BlindBucket.Proxy.Rollback
import BlindBucket.Proxy.Upload
import BlindBucket.S3api.Router
import BlindBucket.Stream.Nonces
import BlindBucket.Tags
import BlindBucket.Upload.Token
import BlindBucket.Upstream.Multipart
