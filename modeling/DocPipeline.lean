import DocPipeline.Library.Isolation
import DocPipeline.Library.Logs
import DocPipeline.Failure
import DocPipeline.Timeline
import DocPipeline.Snapshots
import DocPipeline.Wire
import DocPipeline.Connections
import DocPipeline.Nacking
import DocPipeline.Creation
import DocPipeline.Reporting
import DocPipeline.Sessions
import DocPipeline.Custody
import DocPipeline.ConsumerLoop
import DocPipeline.Conservation
import DocPipeline.Backpressure
import DocPipeline.Provenance
import DocPipeline.Watching
import DocPipeline.Catalogued
import DocPipeline.Installations
import DocPipeline.Provisioning
